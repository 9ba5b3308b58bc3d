import FlowFacts.Proofs.Program.Body

/-!
# The search for a type

The type of a value as rules: a negation and a binary operation have the type of their first
operand, so the search for a type follows operands.  The rules know no bound on its length.  It
ends nevertheless, since operands are created before the instructions that use them, and it ends
with the type of the value.

## Main definitions

* `Program.FindsType` — the search for the type of a value.

## Main results

* `Ordered.findsType_iff` — the search ends with the type of the value.
-/

namespace FlowFacts.Program

variable {p : Program} {v w : ValueId} {op : Operation}

/-- The search in `p` for the type of a value, which follows operands without any bound. -/
inductive FindsType (p : Program) : ValueId → Option Ty → Prop
  /-- Parameters have the type that is written. -/
  | parameter {v : ValueId} {b : BlockId} {i : Nat} {ty : Ty} :
      p.value v = .parameter b i ty → FindsType p v (some ty)
  /-- Constants have their own type. -/
  | constant {v : ValueId} {x : Constant} : p.value v = .constant x → FindsType p v (some x.ty)
  /-- A negation has the type of its operand. -/
  | not {v arg : ValueId} {r : Option Ty} : p.operation? v = some (.not arg) →
      FindsType p arg r → FindsType p v r
  /-- A binary operation has that of its first operand. -/
  | binary {v lhs rhs : ValueId} {op : BinaryOp} {r : Option Ty} :
      p.operation? v = some (.binary op lhs rhs) → FindsType p lhs r → FindsType p v r
  /-- A call has that of the result. -/
  | call {v : ValueId} {callee : FunctionId} {args : List ValueId} :
      p.operation? v = some (.call callee args) →
      FindsType p v (some (p.function callee).returnType)
  /-- A comparison is a truth value. -/
  | compare {v lhs rhs : ValueId} {predicate : Comparison} :
      p.operation? v = some (.compare predicate lhs rhs) → FindsType p v (some .bool)
  /-- Other instructions have no type. -/
  | other {v : ValueId} {op : Operation} : p.operation? v = some op → op.hasResult = false →
      FindsType p v none

/-- The search for the type of `v` ends, since operands were created before. -/
theorem Ordered.findsType_typeOf (h : p.Ordered) (v : ValueId) : p.FindsType v (p.typeOf v) := by
  induction hn : v.index using Nat.strongRecOn generalizing v with
  | _ n ih =>
    subst hn
    cases hvalue : p.value v with
    | parameter b i ty => exact typeOf_of_parameter hvalue ▸ .parameter hvalue
    | constant x => exact typeOf_of_constant hvalue ▸ .constant hvalue
    | instruction b op =>
      have hop := operation?_eq_some_iff.2 ⟨b, hvalue⟩
      have hlt : ∀ w ∈ op.operands, w.index < v.index := fun w hw => h.operand_lt hvalue hw
      cases op with
      | not arg =>
        rw [h.typeOf_not hop]
        exact .not hop (ih _ (hlt arg (List.mem_singleton_self _)) arg rfl)
      | binary op lhs rhs =>
        rw [h.typeOf_binary hop]
        exact .binary hop (ih _ (hlt lhs List.mem_cons_self) lhs rfl)
      | call callee args => exact typeOf_call hop ▸ .call hop
      | compare predicate lhs rhs => exact typeOf_compare hop ▸ .compare hop
      | annotate | branch | condBranch | nop | ret =>
        exact typeOf_eq_none hop rfl ▸ .other hop rfl

/-- The search for the type of `v` ends with this type, and with nothing else. -/
theorem Ordered.findsType_iff (h : p.Ordered) {r : Option Ty} :
    p.FindsType v r ↔ p.typeOf v = r := by
  refine ⟨fun hr => ?_, fun hr => hr ▸ h.findsType_typeOf v⟩
  induction hr with
  | parameter hvalue => exact typeOf_of_parameter hvalue
  | constant hvalue => exact typeOf_of_constant hvalue
  | not hop _ ih => exact (h.typeOf_not hop).trans ih
  | binary hop _ ih => exact (h.typeOf_binary hop).trans ih
  | call hop => exact typeOf_call hop
  | compare hop => exact typeOf_compare hop
  | other hop hresult => exact typeOf_eq_none hop hresult

end FlowFacts.Program
