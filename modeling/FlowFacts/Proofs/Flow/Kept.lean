import FlowFacts.Proofs.Flow.Binds
import FlowFacts.Proofs.Program.Dominance
import FlowFacts.Proofs.Source.Local

/-!
# Where values are bound to their formulas

Wherever the definitions of all the values involved dominate a place, the environments at the
place bind a value to its formula.  What could remove the binding is a new meaning of an atom
that the formula mentions.  An atom gets one where its value is defined, but a place that is
dominated by a value cannot be reached from there without defining the value again.

A comparison of values that are no truth values is not computed, and is not bound where it is
defined but where it is used first.  So it counts as bound only if something dominates the
place that was computed from it.

## Main definitions

* `Program.Watched` — values that are used only where they are defined.
* `Program.Kept` — the values that are bound at a place.

## Main results

* `Watched.not_reflTransGen` — the result of an instruction is not kept before it.
* `keeps_binds` — the values to be kept are bound, wherever an environment is stored.
-/

namespace FlowFacts

open FormulaM FormulaTable Program Relation

variable {T : FormulaTable} {p : Program} {f : FunctionId} {e e' : Environment}
  {u v w : ValueId} {b c : BlockId} {k : Nat} {op : Operation} {J S : ValueId → Prop}

namespace Program

/-! ### Types of operands -/

theorem HasBody.isBool_of_computed (h : p.HasBody f) (hb : b ∈ (p.function f).blocks)
    (hv : v ∈ (p.block b).instructions) (hcomputed : p.Computed v) : p.isBool v = true := by
  obtain ⟨op, hop, hcombines⟩ := hcomputed
  have hfits := h.fits hb hv hop
  rw [isBool, beq_iff_eq]
  cases op with
  | not arg => exact (h.built.typeOf_not hop).trans hfits
  | binary op lhs rhs =>
    have hlogical : op.isLogical = true := hcombines
    rw [h.built.typeOf_binary hop, hfits lhs List.mem_cons_self, if_pos hlogical]
  | compare predicate lhs rhs => exact typeOf_compare hop
  | annotate | branch | call | condBranch | nop | ret => cases hcombines

/-- The operands `w` that truth values are computed from are truth values. -/
theorem HasBody.isBool_of_mem_operands (h : p.HasBody f) (hb : b ∈ (p.function f).blocks)
    (hv : v ∈ (p.block b).instructions) (hop : p.operation? v = some op)
    (hcombines : p.combines op = true) (hw : w ∈ op.operands) : p.isBool w = true := by
  have hfits := h.fits hb hv hop
  cases op with
  | not arg =>
    rw [Operation.operands, List.mem_singleton] at hw
    rw [isBool, beq_iff_eq, hw]
    exact hfits
  | binary op lhs rhs =>
    have hlogical : op.isLogical = true := hcombines
    rw [isBool, beq_iff_eq, hfits w hw, if_pos hlogical]
  | compare predicate lhs rhs =>
    simp only [combines, Bool.and_eq_true, isBool, beq_iff_eq] at hcombines
    obtain ⟨ty, hl, hr, -⟩ := hfits
    rw [hl, Option.some.injEq] at hcombines
    rw [isBool, beq_iff_eq]
    simp only [Operation.operands, List.mem_cons, List.not_mem_nil, or_false] at hw
    rcases hw with rfl | rfl
    · rw [hl, hcombines.2]
    · rw [hr, hcombines.2]
  | annotate | branch | call | condBranch | nop | ret => cases hcombines

theorem atomic_or_computed (hbool : p.isBool v = true) (hconst : p.constant? v = none) :
    p.Atomic v ∨ p.Computed v := by
  by_cases hcomputed : p.Computed v
  · exact Or.inr hcomputed
  · exact Or.inl ⟨hbool, hconst, hcomputed⟩

/-- A parameter `v` is not computed. -/
theorem Built.not_computed_of_param (h : p.Built) (hv : v ∈ (p.block b).params) :
    ¬ p.Computed v := by
  rintro ⟨op, hop, -⟩
  obtain ⟨i, ty, hparam⟩ := h.parameter_of_mem hv
  simp [operation?, hparam] at hop

theorem Built.atomic_of_param (h : p.Built) (hv : v ∈ (p.block b).params)
    (hbool : p.isBool v = true) : p.Atomic v :=
  ⟨hbool, h.constant?_of_param hv, h.not_computed_of_param hv⟩

/-- The boolean arguments of `f` are the parameters of the entry that are truth values. -/
theorem Local.mem_boolArgs_iff (h : p.Local f) :
    v ∈ p.boolArgs f ↔ v ∈ (p.block (p.function f).entry).params ∧ p.isBool v = true := by
  rw [h.entry, boolArgs, List.mem_filter]

theorem Local.atomic_of_arg (h : p.Local f) (hv : v ∈ p.boolArgs f) : p.Atomic v :=
  h.built.atomic_of_param (h.mem_boolArgs_iff.1 hv).1 (h.mem_boolArgs_iff.1 hv).2

/-! ### Values that are kept -/

/-- The value `v` is a truth value that is bound to its atom where it is defined. -/
def Immediate (p : Program) (v : ValueId) : Prop :=
  p.Atomic v ∧ ((∃ b, v ∈ (p.block b).params) ∨
    ∃ callee args, p.operation? v = some (.call callee args))

/-- The value `w` is bound at position `k` of `b`: one of the values `S` dominates the place and
is bound where it is defined, and `w` is this value or one that it is computed from. -/
def Kept (p : Program) (f : FunctionId) (S : ValueId → Prop) (b : BlockId) (k : Nat)
    (w : ValueId) : Prop :=
  ∃ v, S v ∧ (p.Computed v ∨ p.Immediate v) ∧ p.Dominates f v b k ∧
    (w = v ∨ p.ComputedFrom v w)

/-- Values `S` that are computed only from values that dominate the place.  Of the values `J`,
those that are computed are among them and are used only where they dominate. -/
structure Watched (p : Program) (f : FunctionId) (S J : ValueId → Prop) : Prop where
  /-- They contain what they are computed from. -/
  closed : ∀ {v w}, S v → p.ComputedFrom v w → S w
  /-- What they are computed from dominates the place. -/
  dominates : ∀ {b k v w}, p.Reaches (p.function f).entry b →
    (p.block b).instructions[k]? = some v → S v → p.ComputedFrom v w → p.Dominates f w b k
  /-- Something is claimed of all values that are not computed. -/
  atomic : ∀ w, p.Atomic w → J w
  /-- Of those that are computed, something is claimed of the values `S` only. -/
  computed : ∀ {v}, J v → p.Computed v → S v
  /-- These are used where they dominate. -/
  operand : ∀ {b k v op w}, p.Reaches (p.function f).entry b →
    (p.block b).instructions[k]? = some v → p.operation? v = some op → w ∈ op.operands → J w →
    p.Computed w → p.Dominates f w b k

theorem Dominates.succ (h : p.Dominates f v b k) : p.Dominates f v b (k + 1) := by
  intro met hmet
  cases hmet with
  | step hwalk _ => exact List.mem_cons_of_mem _ (h _ hwalk)

theorem Kept.succ (h : p.Kept f S b k w) : p.Kept f S b (k + 1) w := by
  obtain ⟨v, hv, hbound, hdom, hw⟩ := h
  exact ⟨v, hv, hbound, hdom.succ, hw⟩

/-- If every operand of `f` is used where it is defined only, all values are watched. -/
theorem Disciplined.watched (h : p.Disciplined f) (hbody : p.HasBody f) :
    p.Watched f (fun _ => True) fun _ => True where
  closed _ _ := trivial
  dominates hb hv _ hfrom := by
    obtain ⟨op, hop, -, hw, hconst⟩ := hfrom
    exact h _ (hbody.mem_blocks_of_reaches hb) _ _ op hv hop _ hw hconst
  atomic _ _ := trivial
  computed _ _ := trivial
  operand hb hv hop hw _ hcomputed :=
    h _ (hbody.mem_blocks_of_reaches hb) _ _ _ hv hop _ hw hcomputed.constant?_eq_none

namespace Watched

variable (h : p.Watched f S J) (hbody : p.HasBody f)

include h

theorem closed_reflTransGen (hv : S v) (hchain : ReflTransGen p.ComputedFrom v w) : S w := by
  induction hchain with
  | refl => exact hv
  | tail _ hstep ih => exact h.closed ih hstep

/-- An operand `w` of which something is claimed is kept, unless it is not computed. -/
theorem safe (hb : p.Reaches (p.function f).entry b)
    (hv : (p.block b).instructions[k]? = some v) (hop : p.operation? v = some op)
    (hw : w ∈ op.operands) : p.Safe (p.Kept f S b k) J w := by
  intro hbool hconst hJ
  refine (atomic_or_computed hbool hconst).imp_right fun hcomputed => ?_
  exact ⟨w, h.computed hJ hcomputed, Or.inl hcomputed, h.operand hb hv hop hw hJ hcomputed,
    Or.inl rfl⟩

/-- An operand `w` still is safe after the instruction `v`. -/
theorem safe_succ (hb : p.Reaches (p.function f).entry b)
    (hv : (p.block b).instructions[k]? = some v) (hop : p.operation? v = some op)
    (hw : w ∈ op.operands) : p.Safe (p.Kept f S b (k + 1)) J w := by
  exact fun hbool hconst hJ => (h.safe hb hv hop hw hbool hconst hJ).imp_right Kept.succ

include hbody

/-- A value `w` that `v` is computed from dominates what `v` dominates. -/
theorem dominates_reflTransGen (hv : S v) (hchain : ReflTransGen p.ComputedFrom v w)
    (hdom : p.Dominates f v b k) : p.Dominates f w b k := by
  induction hchain with
  | refl => exact hdom
  | @tail u w hchain hstep ih =>
    intro met hmet
    -- the walk has met the computed value, so it passed its instruction, which `w` dominates
    have hu := ih met hmet
    have hS := h.closed_reflTransGen hv hchain
    obtain ⟨b', hb', hparam | hmem⟩ := hmet.exists_block hu
    · exact absurd hstep.computed (hbody.built.not_computed_of_param hparam)
    · exact hmet.mem_of_dominates hbody.built hmem hu fun j hj => h.dominates hb' hj hS hstep

/-- What the terminator of `b` refers to are operands of the last instruction. -/
theorem safe_terminator (hb : p.Reaches (p.function f).entry b)
    (hterm : p.terminator? b = some op) (hw : w ∈ op.operands) :
    p.Safe (p.Kept f S b (p.block b).instructions.length) J w := by
  obtain ⟨before, last, op', hlist, hop, -, hterm', -⟩ :=
    hbody.exists_last (hbody.mem_blocks_of_reaches hb)
  cases hterm.symm.trans hterm'
  have hlast : (p.block b).instructions[before.length]? = some last := by simp [hlist]
  have hlen : (p.block b).instructions.length = before.length + 1 := by simp [hlist]
  rw [hlen]
  exact h.safe_succ hb hlast hop hw

/-- The values that are kept contain what they are computed from. -/
theorem supports : p.Supports (p.Kept f S b k) := by
  rintro w u ⟨v, hv, hbound, hdom, hw⟩ hchain -
  have hvu : ReflTransGen p.ComputedFrom v u := by
    rcases hw with rfl | hw
    · exact hchain
    · exact .head hw hchain
  rcases hvu.cases_tail with rfl | ⟨m, hvm, hmu⟩
  · exact ⟨u, hv, hbound, hdom, Or.inl rfl⟩
  · exact ⟨m, h.closed_reflTransGen hv hvm, Or.inl hmu.computed,
      h.dominates_reflTransGen hbody hv hvm hdom, Or.inr hmu⟩

/-- What one of the values `S` is computed from is kept or not computed. -/
theorem ready (hb : p.Reaches (p.function f).entry b)
    (hv : (p.block b).instructions[k]? = some v) (hop : p.operation? v = some op)
    (hcombines : p.combines op = true) (hS : S v) (hw : w ∈ op.operands) :
    p.Ready (p.Kept f S b k) w := by
  have hblock := hbody.mem_blocks_of_reaches hb
  have hbool := hbody.isBool_of_mem_operands hblock (List.mem_of_getElem? hv) hop hcombines hw
  refine ⟨hbool, fun hconst => ?_⟩
  have hfrom : p.ComputedFrom v w := ⟨op, hop, hcombines, hw, hconst⟩
  refine (atomic_or_computed hbool hconst).imp_right fun hcomputed => ?_
  exact ⟨w, h.closed hS hfrom, Or.inl hcomputed, h.dominates hb hv hS hfrom, Or.inl rfl⟩

/-- Nothing that is kept before the instruction `v` is computed from its result. -/
theorem not_reflTransGen (hb : p.Reaches (p.function f).entry b)
    (hv : (p.block b).instructions[k]? = some v) (hw : p.Kept f S b k w) :
    ¬ ReflTransGen p.ComputedFrom w v := by
  intro hchain
  obtain ⟨u, hu, -, hdom, hw⟩ := hw
  have huv : ReflTransGen p.ComputedFrom u v := by
    rcases hw with rfl | hw
    · exact hchain
    · exact .head hw hchain
  -- there is a walk to the instruction that has not met it
  obtain ⟨met, hmet⟩ := exists_walks hb
  obtain ⟨met', hmet'⟩ := hmet.exists_of_le
    (Nat.le_of_lt (List.getElem?_eq_some_iff.1 hv).1)
  obtain ⟨first, hfirst, hnot⟩ := exists_walks_before hbody.built hv hmet'
  exact hnot (h.dominates_reflTransGen hbody hu huv hdom first hfirst)

/-- What is kept at the start of `c` and is no parameter is kept at the end of a block `b` that
leads there, and is not computed from a parameter. -/
theorem kept_of_cross (hb : p.Reaches (p.function f).entry b) (hedge : p.Edge b c)
    (hw : p.Kept f S c 0 w) : w ∈ (p.block c).params ∧ p.isBool w = true ∨
      p.Kept f S b (p.block b).instructions.length w ∧
        ∀ u ∈ (p.block c).params, ¬ ReflTransGen p.ComputedFrom w u := by
  obtain ⟨v, hv, hbound, hdom, hw⟩ := hw
  by_cases hparam : v ∈ (p.block c).params
  · have hnot := hbody.built.not_computed_of_param hparam
    have hwv : w = v := hw.resolve_right fun hfrom => hnot hfrom.computed
    subst hwv
    exact Or.inl ⟨hparam, (hbound.resolve_left hnot).1.1⟩
  · refine Or.inr ⟨⟨v, hv, hbound, hdom.of_cross hedge hparam, hw⟩, fun u hu hchain => ?_⟩
    have hvu : ReflTransGen p.ComputedFrom v u := by
      rcases hw with rfl | hw
      · exact hchain
      · exact .head hw hchain
    -- there is a walk to the block on which its parameters were not defined
    have hentry : c ≠ (p.function f).entry := by
      rintro rfl
      exact hbody.not_edge_entry hedge
    obtain ⟨met, hmet⟩ := exists_walks (hb.tail hedge)
    obtain ⟨b', first, hfirst, hedge', hnot⟩ := exists_walks_into hbody.built hentry hmet
    have hdom' := hdom.of_cross hedge' hparam
    exact hnot u hu (h.dominates_reflTransGen hbody hv hvu hdom' first hfirst)

end Watched

/-- What is kept after the instruction `v` was kept before it, or is due to it. -/
theorem Kept.of_step (hw : p.Kept f S b (k + 1) w)
    (hv : (p.block b).instructions[k]? = some v) : p.Kept f S b k w ∨
      S v ∧ (p.Computed v ∨ p.Immediate v) ∧ (w = v ∨ p.ComputedFrom v w) := by
  obtain ⟨u, hu, hbound, hdom, hw⟩ := hw
  by_cases huv : u = v
  · subst huv
    exact Or.inr ⟨hu, hbound, hw⟩
  · exact Or.inl ⟨u, hu, hbound, hdom.of_step hv huv, hw⟩

/-- A value `w` that is kept is a truth value. -/
theorem Kept.isBool (hw : p.Kept f S b k w) (hbody : p.HasBody f)
    (hb : p.Reaches (p.function f).entry b) (hk : k ≤ (p.block b).instructions.length) :
    p.isBool w = true := by
  obtain ⟨v, -, hbound, hdom, hw⟩ := hw
  obtain ⟨met, hmet⟩ := exists_walks hb
  obtain ⟨met', hmet'⟩ := hmet.exists_of_le hk
  obtain ⟨b', hb', hplace⟩ := hmet'.exists_block (hdom met' hmet')
  have hblock := hbody.mem_blocks_of_reaches hb'
  have hinstr : p.Computed v → v ∈ (p.block b').instructions := fun hcomputed =>
    hplace.resolve_left fun hparam => hbody.built.not_computed_of_param hparam hcomputed
  rcases hw with rfl | hw
  · rcases hbound with hcomputed | himmediate
    · exact hbody.isBool_of_computed hblock (hinstr hcomputed) hcomputed
    · exact himmediate.1.1
  · have hmem := hinstr hw.computed
    obtain ⟨op, hop, hcombines, hw, -⟩ := hw
    exact hbody.isBool_of_mem_operands hblock hmem hop hcombines hw

/-- An argument `v` is kept everywhere. -/
theorem Local.kept_of_arg (hlocal : p.Local f) (hv : v ∈ p.boolArgs f) (hS : S v) :
    p.Kept f S b k v := by
  have hparam := (hlocal.mem_boolArgs_iff.1 hv).1
  have himmediate : p.Immediate v := ⟨hlocal.atomic_of_arg hv, Or.inl ⟨_, hparam⟩⟩
  exact ⟨v, hS, Or.inr himmediate, fun met hmet => hmet.mem_of_entry hparam, Or.inl rfl⟩

/-- A value `w` that is kept is among the values `S`. -/
theorem Kept.mem (hw : p.Kept f S b k w) (h : p.Watched f S J) : S w := by
  obtain ⟨v, hv, -, -, rfl | hfrom⟩ := hw
  · exact hv
  · exact h.closed hv hfrom

end Program

/-! ### Steps -/

theorem combines_of_isQuiet (h : op.isQuiet = true) : p.combines op = false := by
  cases op with
  | annotate | branch | condBranch | nop | ret => rfl
  | not | binary | call | compare => cases h

/-- The result `v` of an operation that may be computed is not bound to its atom where it is
defined. -/
theorem Resulted.not_immediate {r : Option Formula} (h : Resulted T p e op r e')
    (hbuilt : p.Built) (hv : v ∈ (p.block b).instructions) (hop : p.operation? v = some op) :
    ¬ p.Immediate v := by
  rintro ⟨-, ⟨c, hparam⟩ | ⟨callee, args, hcall⟩⟩
  · exact hbuilt.not_mem_params hv hparam
  · cases hop.symm.trans hcall
    cases h

section

variable (hw : p.Watched f S J) (hbody : p.HasBody f) (hT : T.WellFormed)
  (hb : p.Reaches (p.function f).entry b)

include hw hbody hT hb

theorem Transferred.binds (hv : (p.block b).instructions[k]? = some v) (h : Transferred T p v e e')
    (hbinds : Binds T p (p.Kept f S b k) J e) : Binds T p (p.Kept f S b (k + 1)) J e' := by
  have hmem := List.mem_of_getElem? hv
  have hsupports : p.Supports (p.Kept f S b k) := hw.supports hbody
  have hne : ∀ {w}, p.Kept f S b k w → w ≠ v := by
    rintro w hkept rfl
    exact hw.not_reflTransGen hbody hb hv hkept .refl
  cases h with
  | quiet hquiet =>
    -- an instruction that assigns nothing keeps nothing new
    refine hbinds.mono fun w hkept => (hkept.of_step hv).resolve_right ?_
    rintro ⟨-, ⟨op, hop, hcombines⟩ | ⟨-, ⟨c, hparam⟩ | ⟨callee, args, hcall⟩⟩, -⟩
    · simp [combines_of_isQuiet (hquiet op hop)] at hcombines
    · exact hbody.built.not_mem_params hmem hparam
    · cases hquiet _ hcall
  | call hcall hbool hrenewed =>
    have hnot : ¬ p.Computed v := by
      rintro ⟨op, hop, hcombines⟩
      cases hop.symm.trans hcall
      cases hcombines
    have hconst := constant?_of_operation? hcall
    -- the result of a call is bound to its atom; what was kept before is not computed from it
    apply hrenewed.binds hT hbinds hconst (fun _ => ⟨hbool, hconst, hnot⟩)
    intro w hkept
    rcases hkept.of_step hv with hkept | ⟨-, -, rfl | hfrom⟩
    · exact Or.inr ⟨hne hkept, hkept, fun _ => hw.not_reflTransGen hbody hb hv hkept⟩
    · exact Or.inl ⟨rfl, hbool, hconst, hnot⟩
    · exact absurd hfrom.computed hnot
  | callOther hcall hbool =>
    refine hbinds.erase fun w hkept => ?_
    rcases hkept.of_step hv with hkept | ⟨-, ⟨op, hop, hcombines⟩ | himmediate, -⟩
    · exact ⟨hkept, hne hkept⟩
    · cases hop.symm.trans hcall
      cases hcombines
    · simp [himmediate.1.1] at hbool
  | @computed op g e₁ hop hresulted =>
    have hconst := constant?_of_operation? hop
    have hcombines : p.combines op = true := by
      by_contra hnot
      cases hresulted.eq_none (by simpa using hnot)
    have hcomputed : p.Computed v := ⟨op, hop, hcombines⟩
    -- only for the values `S` are the operands known to be bound to their formulas
    by_cases hS : S v
    · obtain ⟨g', hg', hcanonical, hbinds₁⟩ := hresulted.canonical hT hw.atomic hop hcombines
        hsupports hbinds fun w hwop => hw.ready hbody hb hv hop hcombines hS hwop
      cases hg'
      refine hbinds₁.set hconst (fun _ => hcanonical) fun w hkept => ?_
      rcases hkept.of_step hv with hkept | ⟨-, -, hwv | hfrom⟩
      · exact Or.inr (Or.inl hkept)
      · exact Or.inl hwv
      · exact Or.inr (Or.inr hfrom)
    · have hbinds₁ := hresulted.binds hT hsupports
        (fun w hwop => hw.safe hb hv hop hwop) hbinds
      refine hbinds₁.set hconst ?_ fun w hkept => Or.inr ?_
      · rintro (hJ | hkept)
        · exact absurd (hw.computed hJ hcomputed) hS
        · exact absurd (hkept.mem hw) hS
      · exact (hkept.of_step hv).resolve_right fun hdue => hS hdue.1
  | @forgotten op e₁ hop hresulted =>
    have hnot := hresulted.not_immediate hbody.built hmem hop
    have hbinds₁ := hresulted.binds hT hsupports
      (fun w hwop => hw.safe hb hv hop hwop) hbinds
    refine hbinds₁.erase fun w hkept => ?_
    rcases hkept.of_step hv with hkept | ⟨hS, hbound, -⟩
    · exact ⟨hkept, hne hkept⟩
    · -- a result that is computed has a formula
      obtain ⟨op', hop', hcombines⟩ := hbound.resolve_right hnot
      cases hop.symm.trans hop'
      obtain ⟨g', hg', -⟩ := hresulted.canonical hT hw.atomic hop hcombines hsupports hbinds
        fun w hwop => hw.ready hbody hb hv hop hcombines hS hwop
      cases hg'

theorem Refined.binds {catalogue : Catalogue} (hv : (p.block b).instructions[k]? = some v)
    (h : Refined T p catalogue v e e') (hbinds : Binds T p (p.Kept f S b (k + 1)) J e) :
    Binds T p (p.Kept f S b (k + 1)) J e' := by
  cases h with
  | check hcond hfetched hassumed =>
    obtain ⟨⟨callee, args, hcall, hmem⟩, -⟩ := mem_operands_of_condition? hcond
    have hsafe := hw.safe_succ hb hv hcall hmem
    exact (hfetched.binds hT (hw.supports hbody) hsafe hbinds).congr hassumed.values
  | none _ => exact hbinds

/-- Entering the block of `target` along an edge binds its parameters, and keeps what is to be
kept. -/
theorem Entered.binds {target : Target} (htarget : target ∈ p.successors b)
    (h : Entered T p target e e')
    (hargs : ∀ w ∈ target.args, p.Safe (p.Kept f S b (p.block b).instructions.length) J w)
    (hbinds : Binds T p (p.Kept f S b (p.block b).instructions.length) J e) :
    Binds T p (p.Kept f S target.block 0) J e' := by
  obtain ⟨params, e₁, hpassed, hbound⟩ := h
  have hbool : ∀ w, p.Kept f S b (p.block b).instructions.length w → p.isBool w = true :=
    fun w hkept => hkept.isBool hbody hb (Nat.le_refl _)
  obtain ⟨hbinds₁, hmap⟩ := hpassed.binds hT (hw.supports hbody) hbool
    (fun x hx => hargs x.2 (List.of_mem_zip hx).2) hbinds
  -- a value is passed for every parameter
  have hparams : params.map Prod.fst = (p.block target.block).params.filter p.isBool := by
    have hfits := (hbody.fitsTarget (hbody.mem_blocks_of_reaches hb) htarget).2
    have hlen : (p.block target.block).params.length = target.args.length := by
      simpa using (congrArg List.length hfits).symm
    rw [hmap, passed, List.map_fst_zip (Nat.le_of_eq hlen)]
  have hmem : ∀ {w}, w ∈ params.map Prod.fst ↔
      w ∈ (p.block target.block).params ∧ p.isBool w = true := by
    intro w
    rw [hparams, List.mem_filter]
  refine hbound.binds hT hbinds₁ (fun v hv => ?_) fun w hkept => ?_
  · exact hbody.built.atomic_of_param (hmem.1 hv).1 (hmem.1 hv).2
  · rcases hw.kept_of_cross hbody hb ⟨target, htarget, rfl⟩ hkept with hparam | ⟨hkept, hnot⟩
    · exact Or.inl (hmem.2 hparam)
    · refine Or.inr ⟨fun hparam => hnot w (hmem.1 hparam).1 .refl, hkept, fun u hu => ?_⟩
      exact hnot u (hmem.1 hu).1

theorem Crosses.binds (h : Crosses T p b e c e')
    (hbinds : Binds T p (p.Kept f S b (p.block b).instructions.length) J e) :
    Binds T p (p.Kept f S c 0) J e' := by
  obtain ⟨op, target, e₁, hterm, htarget, rfl, hargs, hentered, hfrom⟩ := h.exists_entered
  have hsafe : ∀ w ∈ op.operands, p.Safe (p.Kept f S b (p.block b).instructions.length) J w :=
    fun w hwop => hw.safe_terminator hbody hb hterm hwop
  refine hentered.binds hw hbody hT hb (mem_successors_iff.2 ⟨op, hterm, htarget⟩)
    (fun w hwop => hsafe w (hargs w hwop)) ?_
  rcases hfrom with rfl | ⟨cond, _, _, _, _, e₀, rfl, hdecided, hassumed, -⟩
  · exact hbinds
  · have hbool := hbody.isBool_of_condBranch (hbody.mem_blocks_of_reaches hb) hterm
    exact ((hdecided.fetched hbool).binds hT (hw.supports hbody) (hsafe cond List.mem_cons_self)
      hbinds).congr hassumed.values

end

/-- At the start of `f` the arguments are bound. -/
theorem Opened.binds (hlocal : p.Local f) (hT : T.WellFormed) (h : Opened T p f e) :
    Binds T p (p.Kept f S (p.function f).entry 0) J e := by
  obtain ⟨e₀, -, -, hempty, hrenewed⟩ := h
  have hempty : Binds T p (fun _ => False) J e₀ := by
    refine ⟨fun w hw => hw.elim, fun w g _ hget => ?_, fun w g hget => ?_⟩ <;>
      simp [hempty] at hget
  apply (hrenewed.binds hT (fun v hv => hlocal.atomic_of_arg hv) (fun w hw => hw.elim) hempty).mono
  rintro w ⟨v, -, hbound, hdom, hw⟩
  have hparam := hdom.of_start
  have hnot := hlocal.built.not_computed_of_param hparam
  have hwv : w = v := hw.resolve_right fun hfrom => hnot hfrom.computed
  subst hwv
  exact Or.inr (hlocal.mem_boolArgs_iff.2 ⟨hparam, (hbound.resolve_left hnot).1.1⟩)

/-- The values to be kept are bound to their formulas, wherever an environment is stored. -/
theorem keeps_binds {task : Task} {catalogue : Catalogue} {start : Environment}
    (hlocal : task.program.Local task.function) (hT : T.WellFormed)
    (hw : task.program.Watched task.function S J)
    (hopened : Opened T task.program task.function start) :
    task.Keeps catalogue.rule T start fun b k e =>
      Binds T task.program (task.program.Kept task.function S b k) J e where
  start := hopened.binds hlocal hT
  step hb hv hstepped hbinds := by
    obtain ⟨e₁, htransferred, hrefined⟩ := hstepped
    have hbinds₁ := htransferred.binds hw hlocal.toHasBody hT hb hv hbinds
    exact Refined.binds hw hlocal.toHasBody hT hb hv hrefined hbinds₁
  cross hb hcross hbinds := hcross.binds hw hlocal.toHasBody hT hb hbinds
  join _ hjoined h₁ h₂ := hjoined.binds hT h₁ h₂

end FlowFacts
