import FlowFacts.Proofs.Program.Growth
import FlowFacts.Source.Resolve

/-!
# What lines mean

Resolving, described without its state.  Each line of a text creates one value, so the number
of a value is the number of parameters and lines before it, and a name stands for the last of
these with that name.  `Meets` says when steps of resolving come to an end and what they have
done then; one lemma for each phrase gives the values that it creates and the exact condition
under which it can be resolved.

## Main definitions

* `Meets` — when steps come to an end, and what they do.
* `Site` — what the instructions of a function may refer to.
* `OperationDecl.value`, `OperationDecl.Resolves` — the meaning of an operation.
* `bodiesValues`, `bodiesIds`, `BodiesResolve` — the meaning of the lines of blocks.

## Main results

* `meets_resolveOperation`, `meets_bodies` — operations and lines.
-/

namespace FlowFacts.Source

open Program

variable {α β : Type} {s : Resolution} {C D : Prop} {Q : α → Resolution → Prop} {x : ResolveM α}
  {k : α → ResolveM β}

/-- The steps `x` from `s` on come to an end exactly under the condition `C`, and then `Q` holds
of the result. -/
def Meets (x : ResolveM α) (s : Resolution) (C : Prop) (Q : α → Resolution → Prop) : Prop :=
  (C → ∃ a s', x s = .ok (a, s')) ∧ ∀ a s', x s = .ok (a, s') → C ∧ Q a s'

/-- Steps `x` and `k` that come to an end one after another. -/
theorem exists_of_bind_eq_ok {r : β × Resolution} (h : (x >>= k) s = .ok r) :
    ∃ a s₁, x s = .ok (a, s₁) ∧ k a s₁ = .ok r := by
  have hbind : (x >>= k) s = (x s >>= fun r => k r.1 r.2) := rfl
  rw [hbind] at h
  cases hx : x s with
  | error fault =>
    rw [hx] at h
    cases h
  | ok y =>
    rw [hx] at h
    exact ⟨y.1, y.2, rfl, h⟩

namespace Meets

theorem mono {R : α → Resolution → Prop} (h : Meets x s C Q) (hC : C ↔ D)
    (hR : C → ∀ a s', Q a s' → R a s') : Meets x s D R := by
  refine ⟨fun hD => h.1 (hC.2 hD), fun a s' hx => ?_⟩
  obtain ⟨hc, hQ⟩ := h.2 a s' hx
  exact ⟨hC.1 hc, hR hc a s' hQ⟩

theorem congr (h : Meets x s C Q) (hC : C ↔ D) : Meets x s D Q :=
  h.mono hC fun _ _ _ hQ => hQ

theorem bind {R : β → Resolution → Prop} (h : Meets x s C Q)
    (hk : ∀ a s', C → Q a s' → Meets (k a) s' D R) : Meets (x >>= k) s (C ∧ D) R := by
  constructor
  · rintro ⟨hC, hD⟩
    obtain ⟨a, s₁, hx⟩ := h.1 hC
    obtain ⟨b, s₂, hk₁⟩ := (hk a s₁ hC (h.2 a s₁ hx).2).1 hD
    refine ⟨b, s₂, ?_⟩
    rw [show (x >>= k) s = (x s >>= fun r => k r.1 r.2) from rfl, hx]
    exact hk₁
  · intro b s₂ hrun
    obtain ⟨a, s₁, hx, hk₁⟩ := exists_of_bind_eq_ok hrun
    obtain ⟨hC, hQ⟩ := h.2 a s₁ hx
    obtain ⟨hD, hR⟩ := (hk a s₁ hC hQ).2 b s₂ hk₁
    exact ⟨⟨hC, hD⟩, hR⟩

/-- What follows `x` always comes to an end. -/
theorem andThen {R : β → Resolution → Prop} (h : Meets x s C Q)
    (hk : ∀ a s', C → Q a s' → Meets (k a) s' True R) :
    Meets (x >>= k) s C R := (h.bind hk).congr (and_iff_left trivial)

/-- The first step `x` always comes to an end. -/
theorem after {R : β → Resolution → Prop} (h : Meets x s True Q)
    (hk : ∀ a s', Q a s' → Meets (k a) s' D R) : Meets (x >>= k) s D R :=
  (h.bind fun a s' _ hQ => hk a s' hQ).congr (and_iff_right trivial)

end Meets

theorem meets_pure {a : α} (h : Q a s) : Meets (pure a) s True Q := by
  refine ⟨fun _ => ⟨a, s, rfl⟩, ?_⟩
  rintro _ _ ⟨⟩
  exact ⟨trivial, h⟩

theorem meets_throw (fault : Fault) : Meets (throw fault) s False Q := by
  refine ⟨False.elim, ?_⟩
  rintro _ _ ⟨⟩

theorem meets_get_bind {k : Resolution → ResolveM α} (h : Meets (k s) s C Q) :
    Meets (get >>= k) s C Q := h

theorem meets_modify {change : Resolution → Resolution} {Q : Unit → Resolution → Prop}
    (h : Q () (change s)) : Meets (modify change) s True Q := by
  refine ⟨fun _ => ⟨(), change s, rfl⟩, ?_⟩
  rintro _ _ ⟨⟩
  exact ⟨trivial, h⟩

theorem meets_build {step : StateM Program α}
    (h : Q (step s.program).1 { s with program := (step s.program).2 }) :
    Meets (build step) s True Q := by
  refine ⟨fun _ => ⟨_, _, rfl⟩, ?_⟩
  rintro _ _ ⟨⟩
  exact ⟨trivial, h⟩

/-! ### Names -/

/-- What names stand for, the latest first. -/
abbrev Scope := List (String × ValueId)

/-- The `name` stands for something. -/
def Known (scope : Scope) (name : String) : Prop := (scope.lookup name).isSome

/-- What the `name` stands for. -/
def find (scope : Scope) (name : String) : ValueId := (scope.lookup name).getD default

theorem meets_valueNamed (name : String) : Meets (valueNamed name) s (Known s.names name)
    fun v s' => v = find s.names name ∧ s' = s := by
  refine meets_get_bind ?_
  unfold Known find
  cases s.names.lookup name with
  | none => exact (meets_throw _).congr (by simp)
  | some v => exact (meets_pure ⟨rfl, rfl⟩).congr (by simp)

theorem meets_valuesNamed (names : List String) : ∀ {s : Resolution},
    Meets (valuesNamed names) s (∀ x ∈ names, Known s.names x)
      fun vs s' => vs = names.map (find s.names) ∧ s' = s := by
  unfold valuesNamed
  induction names with
  | nil =>
    intro s
    exact (meets_pure ⟨rfl, rfl⟩).congr (by simp)
  | cons name names ih =>
    intro s
    rw [List.mapM_cons, List.forall_mem_cons]
    refine (meets_valueNamed name).bind ?_
    rintro v s₁ - ⟨rfl, rfl⟩
    refine ih.andThen ?_
    rintro vs s₂ - ⟨rfl, rfl⟩
    exact meets_pure ⟨rfl, rfl⟩

/-- What the instructions of a function may refer to. -/
structure Site where
  /-- The functions of the text. -/
  functions : List FunctionDecl
  /-- The blocks of the function, by their labels. -/
  labels : List (String × BlockId)
  /-- The function. -/
  caller : FunctionId

/-- The block with the `label`. -/
def Site.block (site : Site) (label : String) : BlockId := (site.labels.lookup label).getD default

/-- The function that a call means: the first one with its `path` and number of arguments. -/
def Site.callee? (site : Site) (path : List String) (arity : Nat) : Option FunctionId :=
  (site.functions.findIdx? fun f => f.path == path && f.arity == arity).map FunctionId.mk

/-- The function that a call means, or the caller for now. -/
def Site.callee (site : Site) (path : List String) (arity : Nat) : FunctionId :=
  (site.callee? path arity).getD site.caller

variable {site : Site}

theorem meets_blockLabelled (label : String) :
    Meets (blockLabelled site.labels label) s ((site.labels.lookup label).isSome)
      fun b s' => b = site.block label ∧ s' = s := by
  unfold blockLabelled Site.block
  cases site.labels.lookup label with
  | none => exact (meets_throw _).congr (by simp)
  | some b => exact (meets_pure ⟨rfl, rfl⟩).congr (by simp)

/-- The resolution `s'` has the program and the names of `s`; no call is noted if none was and
the callee was `found`. -/
structure Alike (s s' : Resolution) (found : Prop) : Prop where
  /-- The program is the same. -/
  program : s'.program = s.program
  /-- The names are the same. -/
  names : s'.names = s.names
  /-- A call is noted if one was, or if its callee was not found. -/
  missing : s'.missing = none ↔ s.missing = none ∧ found

theorem meets_calleeNamed (path : List String) (arity : Nat) :
    Meets (calleeNamed site.functions site.caller path arity) s True
      fun f s' => f = site.callee path arity ∧ Alike s s' (site.callee? path arity).isSome := by
  unfold calleeNamed Site.callee Site.callee?
  cases site.functions.findIdx? fun f => f.path == path && f.arity == arity with
  | some index => exact meets_pure ⟨rfl, rfl, rfl, (and_iff_left rfl).symm⟩
  | none =>
    refine Meets.andThen (Q := fun _ s' => Alike s s' False) (meets_modify ⟨rfl, rfl, ?_⟩)
      fun _ s₁ _ h => ?_
    · cases s.missing <;> simp
    · exact meets_pure ⟨rfl, h.program, h.names, by simpa using h.missing⟩

/-! ### Operations -/

/-- Constants are not kept in blocks. -/
def OperationDecl.isConst : OperationDecl → Bool
  | .const .. => true
  | _ => false

/-- The value that an operation of `b` creates. -/
def OperationDecl.value (site : Site) (scope : Scope) (b : BlockId) : OperationDecl → Value
  | .annotate name => .instruction b (.annotate name)
  | .not arg => .instruction b (.not (find scope arg))
  | .binary op lhs rhs => .instruction b (.binary op (find scope lhs) (find scope rhs))
  | .branch label args =>
      .instruction b (.branch { block := site.block label, args := args.map (find scope) })
  | .call path args =>
      .instruction b (.call (site.callee path args.length) (args.map (find scope)))
  | .condBranch cond trueLabel trueArgs falseLabel falseArgs =>
      .instruction b (.condBranch (find scope cond)
        { block := site.block trueLabel, args := trueArgs.map (find scope) }
        { block := site.block falseLabel, args := falseArgs.map (find scope) })
  | .compare predicate lhs rhs =>
      .instruction b (.compare predicate (find scope lhs) (find scope rhs))
  | .const _ value => .constant value
  | .nop => .instruction b .nop
  | .ret ty value => .instruction b (.ret (find scope value) ty)

/-- The names and labels of an operation stand for something in the `scope`, and a constant has
the type it is written with. -/
def OperationDecl.Resolves (site : Site) (scope : Scope) : OperationDecl → Prop
  | .annotate _ | .nop => True
  | .not arg => Known scope arg
  | .binary _ lhs rhs | .compare _ lhs rhs => Known scope lhs ∧ Known scope rhs
  | .branch label args => (site.labels.lookup label).isSome ∧ ∀ x ∈ args, Known scope x
  | .call _ args => ∀ x ∈ args, Known scope x
  | .condBranch cond trueLabel trueArgs falseLabel falseArgs =>
      Known scope cond ∧ (site.labels.lookup trueLabel).isSome ∧
        (site.labels.lookup falseLabel).isSome ∧ (∀ x ∈ trueArgs, Known scope x) ∧
          ∀ x ∈ falseArgs, Known scope x
  | .const ty value => value.ty = ty
  | .ret _ value => Known scope value

/-- If an operation is a call, there is a callee among the `functions`. -/
def OperationDecl.CalledIn (functions : List FunctionDecl) : OperationDecl → Prop
  | .call path args =>
      (functions.findIdx? fun f => f.path == path && f.arity == args.length).isSome
  | _ => True

/-- If `d` is a call, there is a callee. -/
def OperationDecl.Called (site : Site) (d : OperationDecl) : Prop := d.CalledIn site.functions

/-- The line `d` was read: it has created one value, which belongs to its block `b` unless it is
a constant. -/
structure LineRead (site : Site) (b : BlockId) (d : OperationDecl) (s s' : Resolution) : Prop where
  /-- The names are the same. -/
  names : s'.names = s.names
  /-- The value was added. -/
  added : Added s.program s'.program [d.value site s.names b] (fun _ => [])
    fun c => if c = b ∧ d.isConst = false then [⟨s.program.values.size⟩] else []
  /-- A call is noted if one was, or if there is no callee. -/
  missing : s'.missing = none ↔ s.missing = none ∧ d.Called site

theorem meets_append (b : BlockId) {d : OperationDecl} {op : Operation} {s₀ : Resolution}
    (hs : Alike s₀ s (d.Called site)) (hd : d.value site s₀.names b = .instruction b op)
    (hconst : d.isConst = false) :
    Meets (build (Program.append b op)) s True fun v s' =>
      v = ⟨s₀.program.values.size⟩ ∧ LineRead site b d s₀ s' := by
  obtain ⟨hid, hadded⟩ := added_append s.program b op
  refine meets_build ⟨by rw [hid, hs.program], hs.names, ?_, hs.missing⟩
  rw [hs.program] at hadded
  simp only [hd, hconst, hs.program, and_true]
  exact hadded

/-- The same resolution `s`, if nothing was missing. -/
theorem alike_refl (s : Resolution) {found : Prop} (h : found) : Alike s s found :=
  ⟨rfl, rfl, (and_iff_left h).symm⟩

theorem meets_resolveOperation (b : BlockId) (d : OperationDecl) :
    Meets (resolveOperation site.functions site.labels site.caller b d) s (d.Resolves site s.names)
      fun v s' => v = ⟨s.program.values.size⟩ ∧ LineRead site b d s s' := by
  cases d with
  | annotate name => exact meets_append (d := .annotate name) b (alike_refl s trivial) rfl rfl
  | nop => exact meets_append (d := .nop) b (alike_refl s trivial) rfl rfl
  | not arg =>
    refine (meets_valueNamed arg).andThen ?_
    rintro v s' - ⟨rfl, rfl⟩
    exact meets_append b (alike_refl s' trivial) rfl rfl
  | binary op lhs rhs | compare predicate lhs rhs =>
    refine (meets_valueNamed lhs).bind ?_
    rintro v s' - ⟨rfl, rfl⟩
    refine (meets_valueNamed rhs).andThen ?_
    rintro w s₁ - ⟨rfl, rfl⟩
    exact meets_append b (alike_refl s₁ trivial) rfl rfl
  | branch label args =>
    refine (meets_blockLabelled label).bind ?_
    rintro c s' - ⟨rfl, rfl⟩
    refine (meets_valuesNamed args).andThen ?_
    rintro vs s₁ - ⟨rfl, rfl⟩
    exact meets_append b (alike_refl s₁ trivial) rfl rfl
  | call path args =>
    refine (meets_valuesNamed args).andThen ?_
    rintro vs s' - ⟨rfl, rfl⟩
    refine (meets_calleeNamed path _).andThen ?_
    rintro f s₁ - ⟨rfl, halike⟩
    rw [List.length_map, Site.callee?, Option.isSome_map] at halike
    rw [List.length_map]
    exact meets_append b halike rfl rfl
  | condBranch cond trueLabel trueArgs falseLabel falseArgs =>
    refine (meets_valueNamed cond).bind ?_
    rintro v s' - ⟨rfl, rfl⟩
    refine (meets_blockLabelled trueLabel).bind ?_
    rintro c s₁ - ⟨rfl, rfl⟩
    refine (meets_blockLabelled falseLabel).bind ?_
    rintro c s₂ - ⟨rfl, rfl⟩
    refine (meets_valuesNamed trueArgs).bind ?_
    rintro vs s₃ - ⟨rfl, rfl⟩
    refine (meets_valuesNamed falseArgs).andThen ?_
    rintro ws s₄ - ⟨rfl, rfl⟩
    exact meets_append b (alike_refl s₄ trivial) rfl rfl
  | const ty value =>
    rw [resolveOperation]
    by_cases hty : value.ty = ty
    · rw [if_pos (by simpa using hty)]
      refine (meets_build ⟨rfl, rfl, ?_, (and_iff_left trivial).symm⟩).congr
        (iff_of_true trivial hty)
      refine (added_addValue s.program (.constant value)).congr (fun _ => rfl) fun c => ?_
      simp [OperationDecl.isConst]
    · rw [if_neg (by simpa using hty)]
      exact (meets_throw _).congr (iff_of_false id hty)
  | ret ty value =>
    refine (meets_valueNamed value).andThen ?_
    rintro v s' - ⟨rfl, rfl⟩
    exact meets_append b (alike_refl s' trivial) rfl rfl

/-! ### Lines -/

/-- The names after the line `d`, whose value is `v`. -/
def InstructionDecl.scope (d : InstructionDecl) (scope : Scope) (v : ValueId) : Scope :=
  match d.name with
  | some name => (name, v) :: scope
  | none => scope

/-- The values that the lines of `b` create, from some number on. -/
def bodyValues (site : Site) (b : BlockId) : Scope → Nat → List InstructionDecl → List Value
  | _, _, [] => []
  | scope, n, d :: ds =>
      d.operation.value site scope b :: bodyValues site b (d.scope scope ⟨n⟩) (n + 1) ds

/-- Those of them that the block lists. -/
def bodyIds : Nat → List InstructionDecl → List ValueId
  | _, [] => []
  | n, d :: ds => (if d.operation.isConst = false then [⟨n⟩] else []) ++ bodyIds (n + 1) ds

/-- The names after the lines of a block. -/
def bodyScope : Scope → Nat → List InstructionDecl → Scope
  | scope, _, [] => scope
  | scope, n, d :: ds => bodyScope (d.scope scope ⟨n⟩) (n + 1) ds

/-- The lines of a block can be resolved. -/
def BodyResolves (site : Site) : Scope → Nat → List InstructionDecl → Prop
  | _, _, [] => True
  | scope, n, d :: ds =>
      d.operation.Resolves site scope ∧ BodyResolves site (d.scope scope ⟨n⟩) (n + 1) ds

@[simp] theorem length_bodyValues (b : BlockId) (ds : List InstructionDecl) :
    ∀ scope n, (bodyValues site b scope n ds).length = ds.length := by
  induction ds with
  | nil => intro scope n; rfl
  | cons d ds ih => intro scope n; simp [bodyValues, ih]

/-- The lines `ds` were read: the values `new`, those of them that blocks list, and what names
stand for afterwards. -/
structure LinesRead (site : Site) (ds : List InstructionDecl) (new : List Value)
    (I : BlockId → List ValueId) (scope : Scope) (s s' : Resolution) : Prop where
  /-- The names. -/
  names : s'.names = scope
  /-- The values. -/
  added : Added s.program s'.program new (fun _ => []) I
  /-- A call is noted if one was, or if some callee is missing. -/
  missing : s'.missing = none ↔ s.missing = none ∧ ∀ d ∈ ds, d.operation.Called site

theorem meets_resolveInstruction (b : BlockId) (d : InstructionDecl) :
    Meets (resolveInstruction site.functions site.labels site.caller b d) s
      (d.operation.Resolves site s.names) fun _ s' =>
        LinesRead site [d] [d.operation.value site s.names b]
          (fun c => if c = b ∧ d.operation.isConst = false then [⟨s.program.values.size⟩] else [])
          (d.scope s.names ⟨s.program.values.size⟩) s s' := by
  refine (meets_resolveOperation b d.operation).andThen ?_
  rintro v s₁ - ⟨rfl, h⟩
  unfold InstructionDecl.scope
  cases d.name with
  | none => exact meets_pure ⟨h.names, h.added, by simpa using h.missing⟩
  | some name =>
    refine meets_modify ⟨?_, h.added, by simpa using h.missing⟩
    rw [← h.names]

/-- The rounds of a loop over `x` and `xs`, none of which leaves it. -/
theorem meets_forIn_cons {x : α} {xs : List α} {body : α → PUnit → ResolveM (ForInStep PUnit)}
    {Q : Resolution → Prop} {R : PUnit → Resolution → Prop}
    (h : Meets (body x ⟨⟩) s C fun r s' => r = .yield ⟨⟩ ∧ Q s')
    (hxs : ∀ s', C → Q s' → Meets (forIn xs PUnit.unit body) s' D R) :
    Meets (forIn (x :: xs) PUnit.unit body) s (C ∧ D) R := by
  rw [List.forIn_cons]
  refine h.bind ?_
  rintro r s' hC ⟨rfl, hQ⟩
  exact hxs s' hC hQ

theorem meets_body (b : BlockId) {ds : List InstructionDecl} : ∀ {s : Resolution},
    Meets (forIn ds PUnit.unit fun d _ => do
        resolveInstruction site.functions site.labels site.caller b d
        pure (ForInStep.yield PUnit.unit)) s
      (BodyResolves site s.names s.program.values.size ds) fun _ s' =>
        LinesRead site ds (bodyValues site b s.names s.program.values.size ds)
          (fun c => if c = b then bodyIds s.program.values.size ds else [])
          (bodyScope s.names s.program.values.size ds) s s' := by
  induction ds with
  | nil =>
    intro s
    refine meets_pure ⟨rfl, (Added.refl _).congr (fun _ => rfl) fun c => ?_, by simp⟩
    simp [bodyIds]
  | cons d ds ih =>
    intro s
    refine meets_forIn_cons ((meets_resolveInstruction b d).andThen fun _ s₁ _ h =>
      meets_pure ⟨rfl, h⟩) fun s₁ _ h => ?_
    -- the line has created one value, so the next one has the next number
    have hsize : s₁.program.values.size = s.program.values.size + 1 := h.added.length_values
    have hrest := ih (s := s₁)
    rw [h.names, hsize] at hrest
    refine hrest.mono Iff.rfl fun _ _ s₂ h₂ => ⟨h₂.names, ?_, ?_⟩
    · refine (h.added.trans h₂.added).congr (fun _ => rfl) fun c => ?_
      by_cases hc : c = b
      · simp [hc, bodyIds]
      · simp [hc]
    · rw [h₂.missing, h.missing, List.forall_mem_singleton, List.forall_mem_cons, and_assoc]

/-! ### Bodies -/

/-- The blocks of a function by their labels, from some number on. -/
def labelled : Nat → List BlockDecl → List (String × BlockId)
  | _, [] => []
  | n, d :: ds => (d.label, ⟨n⟩) :: labelled (n + 1) ds

/-- The values that the lines of blocks create, from some numbers of values and blocks on. -/
def bodiesValues (site : Site) : Scope → Nat → Nat → List BlockDecl → List Value
  | _, _, _, [] => []
  | scope, n, k, d :: ds =>
      bodyValues site ⟨k⟩ scope n d.body ++
        bodiesValues site (bodyScope scope n d.body) (n + d.body.length) (k + 1) ds

/-- Those of them that a block lists. -/
def bodiesIds : Nat → Nat → List BlockDecl → BlockId → List ValueId
  | _, _, [], _ => []
  | n, k, d :: ds, c =>
      (if c = ⟨k⟩ then bodyIds n d.body else []) ++ bodiesIds (n + d.body.length) (k + 1) ds c

/-- The names after the lines of blocks. -/
def bodiesScope : Scope → Nat → List BlockDecl → Scope
  | scope, _, [] => scope
  | scope, n, d :: ds => bodiesScope (bodyScope scope n d.body) (n + d.body.length) ds

/-- The lines of blocks can be resolved. -/
def BodiesResolve (site : Site) : Scope → Nat → List BlockDecl → Prop
  | _, _, [] => True
  | scope, n, d :: ds =>
      BodyResolves site scope n d.body ∧
        BodiesResolve site (bodyScope scope n d.body) (n + d.body.length) ds

theorem meets_bodies {ds : List BlockDecl} : ∀ {s : Resolution} {k : Nat},
    Meets (forIn (ds.zip (labelled k ds)) PUnit.unit fun x _ => do
        forIn x.1.body PUnit.unit fun d _ => do
          resolveInstruction site.functions site.labels site.caller x.2.2 d
          pure (ForInStep.yield PUnit.unit)
        pure (ForInStep.yield PUnit.unit)) s
      (BodiesResolve site s.names s.program.values.size ds) fun _ s' =>
        LinesRead site (ds.flatMap BlockDecl.body)
          (bodiesValues site s.names s.program.values.size k ds)
          (bodiesIds s.program.values.size k ds)
          (bodiesScope s.names s.program.values.size ds) s s' := by
  induction ds with
  | nil =>
    intro s k
    exact meets_pure ⟨rfl, Added.refl _, by simp⟩
  | cons d ds ih =>
    intro s k
    refine meets_forIn_cons ((meets_body ⟨k⟩).andThen fun _ s₁ _ h => meets_pure ⟨rfl, h⟩)
      fun s₁ _ h => ?_
    -- each line of the block has created one value
    have hsize : s₁.program.values.size = s.program.values.size + d.body.length := by
      rw [h.added.length_values, length_bodyValues]
    have hrest := ih (s := s₁) (k := k + 1)
    rw [h.names, hsize] at hrest
    refine hrest.mono Iff.rfl fun _ _ s₂ h₂ => ⟨h₂.names, ?_, ?_⟩
    · exact (h.added.trans h₂.added).congr (fun _ => rfl) fun c => rfl
    · rw [h₂.missing, h.missing, List.flatMap_cons, List.forall_mem_append, and_assoc]

end FlowFacts.Source
