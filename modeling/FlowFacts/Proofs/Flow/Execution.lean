import FlowFacts.Proofs.Flow.Transfer
import FlowFacts.Proofs.Program.Body
import Mathlib.Logic.Function.Basic

/-!
# Executions

What a function does when it runs.  An execution starts at the entry with any values of the
arguments and takes one instruction after another.  Operations on truth values compute their
result; every other operation that has a result may give any value of its type, each time it
is met.  After a call that a catalogue knows as a check, the execution goes on only if the
condition is true.  A branch assigns the values it passes to the parameters of the block it
goes to, all at once.  Whatever is read must have been assigned, unless it is a constant.

## Main definitions

* `Store`, `State` — the values assigned, and a place in a function.
* `Program.computed?` — the results of operations on truth values.
* `Step`, `Run` — executions.

## Main results

* `Step.proper`, `Run.proper` — values have the right types, and an execution stays in its
  function.
-/

namespace FlowFacts

/-- The values that have been assigned. -/
abbrev Store := ValueId → Option Constant

namespace Program

variable {p : Program} {σ : Store} {v w : ValueId} {x y : Constant}

/-- The value of an operand `v`: a constant has its own, everything else the one that `σ`
assigns. -/
def read (p : Program) (σ : Store) (v : ValueId) : Option Constant := (p.constant? v).or (σ v)

/-- The truth value of an operand `v`. -/
def readBool? (p : Program) (σ : Store) (v : ValueId) : Option Bool :=
  (p.read σ v).bind Constant.asBool?

theorem read_of_constant? (h : p.constant? v = some x) : p.read σ v = some x := by
  rw [read, h, Option.some_or]

theorem read_of_not_constant (h : p.constant? v = none) : p.read σ v = σ v := by
  rw [read, h, Option.none_or]

/-- An assignment to `v`, which is no constant, changes what is read of `v` only. -/
theorem read_update (h : p.constant? v = none) :
    p.read (Function.update σ v (some x)) w = if w = v then some x else p.read σ w := by
  by_cases hw : w = v
  · subst hw
    rw [read_of_not_constant h, Function.update_self, if_pos rfl]
  · rw [read, read, Function.update_of_ne hw, if_neg hw]

theorem readBool?_of_read {b : Bool} (h : p.read σ v = some (.bool b)) :
    p.readBool? σ v = some b := by
  rw [readBool?, h]
  rfl

/-- The result of an operation that computes a truth value from truth values. -/
def computed? (p : Program) (σ : Store) : Operation → Option Bool
  | .not arg => (p.readBool? σ arg).map (!·)
  | .binary op lhs rhs =>
      if op.isLogical then do
        return op.onBools (← p.readBool? σ lhs) (← p.readBool? σ rhs)
      else none
  | .compare predicate lhs rhs =>
      if predicate.isOrder then none else do
        return predicate.onBools (← p.readBool? σ lhs) (← p.readBool? σ rhs)
  | _ => none

/-- The store after a branch to `target`: the parameters of the block it goes to have the values
that are passed. -/
def assign (p : Program) (target : Target) (σ : Store) : Store := fun v =>
  match (p.passed target).lookup v with
  | some arg => p.read σ arg
  | none => σ v

end Program

/-- A place in a function, with the values assigned so far. -/
structure State where
  /-- The block. -/
  block : BlockId
  /-- The number of instructions of the block that have been taken. -/
  position : Nat
  /-- The values assigned. -/
  store : Store

namespace State

/-- The instruction that `s` takes next. -/
def instruction? (s : State) (p : Program) : Option ValueId :=
  (p.block s.block).instructions[s.position]?

/-- The operation that `s` takes next. -/
def operation? (s : State) (p : Program) : Option Operation :=
  (s.instruction? p).bind p.operation?

/-- The state behind an instruction that assigns nothing. -/
def next (s : State) : State := { s with position := s.position + 1 }

/-- The state behind the instruction `v` with the result `x`. -/
def nextWith (s : State) (v : ValueId) (x : Constant) : State :=
  { s with position := s.position + 1, store := Function.update s.store v (some x) }

/-- The state after a branch to `target`. -/
def goto (s : State) (p : Program) (target : Target) : State where
  block := target.block
  position := 0
  store := p.assign target s.store

/-- The place of `s` is right before an annotation `name`. -/
def IsAt (s : State) (p : Program) (name : String) : Prop :=
  s.operation? p = some (.annotate name)

end State

/-- One step of an execution, where the calls that `c` knows are checks. -/
inductive Step (p : Program) (c : Catalogue) : State → State → Prop
  /-- A point is passed. -/
  | annotate {s : State} {name : String} : s.operation? p = some (.annotate name) →
      Step p c s s.next
  /-- Nothing is done. -/
  | nop {s : State} : s.operation? p = some .nop → Step p c s s.next
  /-- A result is assigned: what is computed from truth values, and otherwise any value of its
  type.  The operands have been assigned, and the condition of a check is true. -/
  | result {s : State} {v : ValueId} {op : Operation} {x : Constant} :
      s.instruction? p = some v → p.operation? v = some op → op.hasResult = true →
      (∀ w ∈ op.operands, (p.read s.store w).isSome) → p.typeOf v = some x.ty →
      (∀ b ∈ p.computed? s.store op, x = .bool b) →
      (∀ cond ∈ c.condition? p v, p.read s.store cond = some (.bool true)) →
      Step p c s (s.nextWith v x)
  /-- A branch goes to its target. -/
  | branch {s : State} {target : Target} : s.operation? p = some (.branch target) →
      (∀ w ∈ target.args, (p.read s.store w).isSome) → Step p c s (s.goto p target)
  /-- A conditional branch goes to one of its targets. -/
  | condBranch {s : State} {cond : ValueId} {whenTrue whenFalse : Target} {b : Bool} :
      s.operation? p = some (.condBranch cond whenTrue whenFalse) →
      p.read s.store cond = some (.bool b) →
      (∀ w ∈ (if b then whenTrue else whenFalse).args, (p.read s.store w).isSome) →
      Step p c s (s.goto p (if b then whenTrue else whenFalse))

/-- Where an execution of `f` starts: the arguments have any values of their types, and nothing
else has been assigned. -/
structure Starts (p : Program) (f : FunctionId) (s : State) : Prop where
  /-- It starts at the entry. -/
  block : s.block = (p.function f).entry
  /-- No instruction has been taken. -/
  position : s.position = 0
  /-- The arguments have been assigned. -/
  args : ∀ x ∈ (p.function f).args, ∃ y, s.store x.2 = some y ∧ p.typeOf x.2 = some y.ty
  /-- Nothing else has. -/
  others : ∀ v, (∀ x ∈ (p.function f).args, x.2 ≠ v) → s.store v = none

/-- A state is reached from another by an execution. -/
def Run (p : Program) (c : Catalogue) : State → State → Prop := Relation.ReflTransGen (Step p c)

/-! ### What executions keep -/

/-- The values that `σ` assigns have the types of what they are assigned to. -/
def Store.Typed (σ : Store) (p : Program) : Prop := ∀ v x, σ v = some x → p.typeOf v = some x.ty

namespace Program

variable {p : Program} {f : FunctionId} {σ : Store} {v w : ValueId} {x : Constant}
  {b : BlockId} {op : Operation}

theorem typeOf_of_read (hσ : σ.Typed p) (h : p.read σ v = some x) : p.typeOf v = some x.ty := by
  cases hc : p.constant? v with
  | some c =>
    rw [read_of_constant? hc, Option.some.injEq] at h
    rw [← h]
    exact typeOf_of_constant? hc
  | none =>
    rw [read_of_not_constant hc] at h
    exact hσ v x h

/-- What has been assigned to a truth value `v` is one. -/
theorem exists_bool_of_read (hσ : σ.Typed p) (hv : p.isBool v = true)
    (h : (p.read σ v).isSome = true) : ∃ b, p.read σ v = some (.bool b) := by
  obtain ⟨x, hx⟩ := Option.isSome_iff_exists.1 h
  have hty := typeOf_of_read hσ hx
  rw [isBool, hty, beq_iff_eq, Option.some.injEq] at hv
  cases x with
  | bool b => exact ⟨b, hx⟩
  | unit | u64 | str => simp [Constant.ty] at hv

theorem mem_passed_of_lookup {target : Target} (h : (p.passed target).lookup v = some w) :
    (v, w) ∈ (p.block target.block).params.zip target.args :=
  mem_of_lookup h

/-- The argument `w` has the type of the parameter `v` it is passed for. -/
theorem FitsTarget.typeOf_eq {fn : Function} {target : Target} (h : p.FitsTarget fn target)
    (hv : (p.passed target).lookup v = some w) : p.typeOf v = p.typeOf w :=
  (map_eq_map_iff_zip.1 h.2.symm).2 (v, w) (mem_passed_of_lookup hv)

/-- A terminator `v` is the last instruction of its block `b`. -/
theorem HasBody.last_of_terminator (h : p.HasBody f) (hb : b ∈ (p.function f).blocks)
    (hv : v ∈ (p.block b).instructions) (hop : p.operation? v = some op)
    (hterm : op.isTerminator = true) :
    p.terminator? b = some op ∧ ∃ before, (p.block b).instructions = before ++ [v] := by
  obtain ⟨before, last, op', hlist, hop', -, hterm', hbefore⟩ := h.exists_last hb
  have hlast : v = last := by
    rw [hlist] at hv
    rcases List.mem_append.1 hv with hv | hv
    · have hnot := hbefore v hv
      simp [isTerminator, hop, hterm] at hnot
    · exact List.mem_singleton.1 hv
  subst hlast
  rw [hop, Option.some.injEq] at hop'
  exact ⟨hop' ▸ hterm', before, hlist⟩

end Program

open Program

variable {p : Program} {f : FunctionId} {c : Catalogue} {s s' : State}

/-- What is known of every state `s` of an execution of `f`. -/
structure State.Proper (s : State) (p : Program) (f : FunctionId) : Prop where
  /-- The block can be reached. -/
  reaches : p.Reaches (p.function f).entry s.block
  /-- Values have the right types. -/
  typed : s.store.Typed p

theorem State.Proper.mem_blocks (hs : s.Proper p f) (h : p.HasBody f) :
    s.block ∈ (p.function f).blocks :=
  h.mem_blocks_of_reaches hs.reaches

theorem State.mem_of_instruction? {v : ValueId} (h : s.instruction? p = some v) :
    v ∈ (p.block s.block).instructions :=
  List.mem_of_getElem? h

theorem State.operation?_eq_some_iff {op : Operation} : s.operation? p = some op ↔
    ∃ v, s.instruction? p = some v ∧ p.operation? v = some op :=
  Option.bind_eq_some_iff

/-- A branch to `target` leads along an edge. -/
theorem Program.HasBody.successor_of_operation? (h : p.HasBody f) (hs : s.Proper p f)
    {op : Operation} (hop : s.operation? p = some op) (hterm : op.isTerminator = true)
    {target : Target} (htarget : target ∈ op.targets) : target ∈ p.successors s.block := by
  obtain ⟨v, hv, hop⟩ := State.operation?_eq_some_iff.1 hop
  obtain ⟨hlast, -⟩ := h.last_of_terminator (hs.mem_blocks h) (State.mem_of_instruction? hv) hop
    hterm
  exact mem_successors_iff.2 ⟨op, hlast, htarget⟩

theorem Starts.proper (hs : Starts p f s) : s.Proper p f where
  reaches := by
    rw [hs.block]
    exact .refl
  typed v x hv := by
    by_cases harg : ∃ y ∈ (p.function f).args, y.2 = v
    · obtain ⟨y, hy, rfl⟩ := harg
      obtain ⟨z, hz, hty⟩ := hs.args y hy
      rw [hv, Option.some.injEq] at hz
      rw [hty, hz]
    · rw [hs.others v fun y hy heq => harg ⟨y, hy, heq⟩] at hv
      cases hv

/-- Going to `target` keeps what is known. -/
theorem State.Proper.goto (h : p.HasBody f) (hs : s.Proper p f) {target : Target}
    (htarget : target ∈ p.successors s.block) : (s.goto p target).Proper p f where
  reaches := hs.reaches.tail ⟨target, htarget, rfl⟩
  typed v x hv := by
    have hfits := h.fitsTarget (hs.mem_blocks h) htarget
    simp only [State.goto, assign] at hv
    split at hv
    · next w hw =>
      rw [hfits.typeOf_eq hw]
      exact typeOf_of_read hs.typed hv
    · exact hs.typed v x hv

theorem Step.proper (h : p.HasBody f) (hs : s.Proper p f) (hstep : Step p c s s') :
    s'.Proper p f := by
  cases hstep with
  | annotate | nop => exact ⟨hs.reaches, hs.typed⟩
  -- the result has the type of the instruction, and nothing else is assigned
  | @result v op x _ _ _ _ hty _ _ =>
    refine ⟨hs.reaches, fun w y hw => ?_⟩
    have hw' : Function.update s.store v (some x) w = some y := hw
    by_cases hwv : w = v
    · subst hwv
      rw [Function.update_self, Option.some.injEq] at hw'
      rw [← hw', hty]
    · rw [Function.update_of_ne hwv] at hw'
      exact hs.typed w y hw'
  | branch hop _ =>
    exact hs.goto h (h.successor_of_operation? hs hop rfl (by simp [Operation.targets]))
  | @condBranch cond whenTrue whenFalse b hop _ _ =>
    refine hs.goto h (h.successor_of_operation? hs hop rfl ?_)
    cases b <;> simp [Operation.targets]

/-- Every state of an execution is proper. -/
theorem Run.proper {s₀ : State} (h : p.HasBody f) (hs₀ : Starts p f s₀) (hrun : Run p c s₀ s) :
    s.Proper p f := by
  induction hrun with
  | refl => exact hs₀.proper
  | tail _ hstep ih => exact hstep.proper h ih

end FlowFacts
