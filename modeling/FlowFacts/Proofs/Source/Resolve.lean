import FlowFacts.Check.Report
import FlowFacts.Proofs.Program.Body
import FlowFacts.Proofs.Source.Lines
import FlowFacts.Source.Load

/-!
# Programs of texts are built

Resolving the names of a text uses the operations of the builder only, with values and blocks
that exist: a name stands for a value that was created before, and a label for a block of the
function.  So the program that results is built.

## Main definitions

* `Resolution.Sound` — the program is built, and names stand for values of it.
* `Keeps` — steps that keep this, and what they give.

## Main results

* `built_of_resolve` — the program of a text is built.
* `hasBody_of_load` — its functions with a body are as the theory wants them.
-/

namespace FlowFacts.Source

open Program

/-- The program of `s` so far is built, and names stand for values of it. -/
structure Resolution.Sound (s : Resolution) : Prop where
  /-- The program is built. -/
  built : s.program.Built
  /-- Names stand for values of the program. -/
  names : ∀ x ∈ s.names, x.2.index < s.program.values.size

variable {α β : Type} {s s' : Resolution} {x : ResolveM α} {Q : α → Resolution → Prop}
  {labels : List (String × BlockId)} {p : Program} {f : FunctionId} {text : String}

/-- If the steps `x` come to an end, the resolution is sound, the program has not become smaller,
and `Q` holds of the result. -/
def Keeps (x : ResolveM α) (s : Resolution) (Q : α → Resolution → Prop) : Prop :=
  ∀ a s', x s = .ok (a, s') → s'.Sound ∧ Grown s.program s'.program ∧ Q a s'

namespace Keeps

theorem mono {Q R : α → Resolution → Prop} (h : Keeps x s Q) (hR : ∀ a s', Q a s' → R a s') :
    Keeps x s R := fun a s' hx => by
  obtain ⟨hsound, hgrown, hQ⟩ := h a s' hx
  exact ⟨hsound, hgrown, hR a s' hQ⟩

/-- What holds of all larger programs, `I`, holds afterwards. -/
theorem later {I : Resolution → Prop} (h : Keeps x s Q)
    (hI : ∀ s', Grown s.program s'.program → I s') : Keeps x s fun _ s' => I s' := fun a s' hx => by
  obtain ⟨hsound, hgrown, -⟩ := h a s' hx
  exact ⟨hsound, hgrown, hI s' hgrown⟩

theorem bind {k : α → ResolveM β} {R : β → Resolution → Prop} (h : Keeps x s Q)
    (hk : ∀ a s', s'.Sound → Grown s.program s'.program → Q a s' → Keeps (k a) s' R) :
    Keeps (x >>= k) s R := by
  intro c s₂ hrun
  obtain ⟨a, s₁, hx, hrest⟩ := exists_of_bind_eq_ok hrun
  obtain ⟨hsound, hgrown, hQ⟩ := h a s₁ hx
  obtain ⟨hsound', hgrown', hR⟩ := hk a s₁ hsound hgrown hQ c s₂ hrest
  exact ⟨hsound', hgrown.trans hgrown', hR⟩

end Keeps

theorem keeps_pure {a : α} (hs : s.Sound) (h : Q a s) : Keeps (pure a) s Q := by
  rintro _ _ ⟨⟩
  exact ⟨hs, .refl _, h⟩

theorem keeps_throw (fault : Fault) : Keeps (throw fault) s Q := by
  rintro _ _ ⟨⟩

theorem keeps_get_bind {k : Resolution → ResolveM β} {R : β → Resolution → Prop}
    (h : Keeps (k s) s R) : Keeps (get >>= k) s R := h

/-- A `change` of the names or of the call noted. -/
theorem keeps_modify {change : Resolution → Resolution} (hs : (change s).Sound)
    (hprogram : (change s).program = s.program) :
    Keeps (modify change) s fun _ s' => s' = change s := by
  rintro _ _ ⟨⟩
  exact ⟨hs, hprogram ▸ .refl _, rfl⟩

/-- A `step` of the builder. -/
theorem keeps_build {step : StateM Program α} {Q : α → Program → Prop} (hs : s.Sound)
    (h : (step s.program).2.Built ∧ Grown s.program (step s.program).2 ∧
      Q (step s.program).1 (step s.program).2) :
    Keeps (build step) s fun a s' => Q a s'.program := by
  rintro _ _ ⟨⟩
  refine ⟨⟨h.1, fun x hx => ?_⟩, h.2.1, h.2.2⟩
  exact Nat.lt_of_lt_of_le (hs.names x hx) h.2.1.values

/-- A loop keeps `I` if each of its rounds does and none of them leaves the loop. -/
theorem keeps_forIn {xs : List α} {body : α → PUnit → ResolveM (ForInStep PUnit)}
    {I : Resolution → Prop} : ∀ {s : Resolution}, s.Sound → I s →
      (∀ x ∈ xs, ∀ s : Resolution, s.Sound → I s →
        Keeps (body x ⟨⟩) s fun r s' => r = .yield ⟨⟩ ∧ I s') →
      Keeps (forIn xs PUnit.unit body) s fun _ s' => I s' := by
  induction xs with
  | nil =>
    intro s hs hI _
    exact keeps_pure hs hI
  | cons x xs ih =>
    intro s hs hI hbody
    rw [List.forall_mem_cons] at hbody
    rw [List.forIn_cons]
    refine (hbody.1 s hs hI).bind ?_
    rintro r s' hs' - ⟨rfl, hI'⟩
    exact ih hs' hI' hbody.2

/-! ### Names -/

theorem keeps_valueNamed (hs : s.Sound) (name : String) :
    Keeps (valueNamed name) s fun v s' => v.index < s'.program.values.size := by
  refine keeps_get_bind ?_
  split
  · next v hv =>
    refine keeps_pure hs (hs.names (name, v) ?_)
    obtain ⟨l₁, l₂, hl, -⟩ := List.lookup_eq_some_iff.1 hv
    simp [hl]
  · exact keeps_throw _

theorem keeps_valuesNamed {names : List String} : ∀ {s : Resolution}, s.Sound →
    Keeps (valuesNamed names) s fun vs s' => ∀ v ∈ vs, v.index < s'.program.values.size := by
  unfold valuesNamed
  induction names with
  | nil =>
    intro s hs
    exact keeps_pure hs (by simp)
  | cons name names ih =>
    intro s hs
    rw [List.mapM_cons]
    refine (keeps_valueNamed hs name).bind fun v s₁ hs₁ _ hv => ?_
    refine (ih hs₁).bind fun vs s₂ hs₂ hgrown hvs => keeps_pure hs₂ ?_
    rw [List.forall_mem_cons]
    exact ⟨Nat.lt_of_lt_of_le hv hgrown.values, hvs⟩

theorem keeps_blockLabelled (hs : s.Sound)
    (hlabels : ∀ x ∈ labels, x.2.index < s.program.blocks.size) (label : String) :
    Keeps (blockLabelled labels label) s fun b s' => b.index < s'.program.blocks.size := by
  unfold blockLabelled
  split
  · next b hb =>
    refine keeps_pure hs (hlabels (label, b) ?_)
    obtain ⟨l₁, l₂, hl, -⟩ := List.lookup_eq_some_iff.1 hb
    simp [hl]
  · exact keeps_throw _

theorem keeps_calleeNamed (hs : s.Sound) (functions : List FunctionDecl) (caller : FunctionId)
    (path : List String) (arity : Nat) :
    Keeps (calleeNamed functions caller path arity) s fun _ _ => True := by
  unfold calleeNamed
  split
  · exact keeps_pure hs trivial
  · refine (keeps_modify ⟨hs.built, hs.names⟩ rfl).bind fun _ s₁ hs₁ _ _ => ?_
    exact keeps_pure hs₁ trivial

/-! ### Instructions -/

theorem keeps_append (hs : s.Sound) (b : BlockId) (op : Operation)
    (hoperands : ∀ w ∈ op.operands, w.index < s.program.values.size)
    (htargets : ∀ target ∈ op.targets, target.block.index < s.program.blocks.size) :
    Keeps (build (Program.append b op)) s fun v s' => v.index < s'.program.values.size :=
  keeps_build (Q := fun (v : ValueId) q => v.index < q.values.size) hs
    (hs.built.append b hoperands htargets)

/-- The operation of `decl` is read with operands and targets that exist. -/
theorem keeps_resolveOperation (hs : s.Sound) (functions : List FunctionDecl)
    (hlabels : ∀ x ∈ labels, x.2.index < s.program.blocks.size) (caller : FunctionId) (b : BlockId)
    (decl : OperationDecl) :
    Keeps (resolveOperation functions labels caller b decl) s fun v s' =>
      v.index < s'.program.values.size := by
  -- labels that exist still do after further steps
  have hlater : ∀ {s' : Resolution}, Grown s.program s'.program →
      ∀ x ∈ labels, x.2.index < s'.program.blocks.size :=
    fun hgrown x hx => Nat.lt_of_lt_of_le (hlabels x hx) hgrown.blocks
  cases decl with
  | annotate name =>
    exact keeps_append hs b (.annotate name) (by simp [Operation.operands])
      (by simp [Operation.targets])
  | not arg =>
    refine (keeps_valueNamed hs arg).bind fun v s₁ hs₁ _ hv => ?_
    exact keeps_append hs₁ b _ (by simpa [Operation.operands] using hv)
      (by simp [Operation.targets])
  | binary op lhs rhs =>
    refine (keeps_valueNamed hs lhs).bind fun v s₁ hs₁ _ hv => ?_
    refine (keeps_valueNamed hs₁ rhs).bind fun w s₂ hs₂ hg₂ hw => ?_
    have hv₂ := Nat.lt_of_lt_of_le hv hg₂.values
    exact keeps_append hs₂ b _ (by simp [Operation.operands, hv₂, hw]) (by simp [Operation.targets])
  | branch label args =>
    refine (keeps_blockLabelled hs hlabels label).bind fun c s₁ hs₁ _ hc => ?_
    refine (keeps_valuesNamed hs₁).bind fun vs s₂ hs₂ hg₂ hvs => ?_
    refine keeps_append hs₂ b _ (by simpa [Operation.operands] using hvs) ?_
    simpa [Operation.targets] using Nat.lt_of_lt_of_le hc hg₂.blocks
  | call path args =>
    refine (keeps_valuesNamed hs).bind fun vs s₁ hs₁ _ hvs => ?_
    refine (keeps_calleeNamed hs₁ functions caller path vs.length).bind fun f s₂ hs₂ hg₂ _ => ?_
    refine keeps_append hs₂ b _ (fun w hw => ?_) (by simp [Operation.targets])
    exact Nat.lt_of_lt_of_le (hvs w hw) hg₂.values
  | condBranch cond trueLabel trueArgs falseLabel falseArgs =>
    -- the condition, both labels, then both lists of arguments
    refine (keeps_valueNamed hs cond).bind fun v s₁ hs₁ hg₁ hv => ?_
    refine (keeps_blockLabelled hs₁ (hlater hg₁) trueLabel).bind fun c s₂ hs₂ hg₂ hc => ?_
    refine (keeps_blockLabelled hs₂ (hlater (hg₁.trans hg₂)) falseLabel).bind
      fun d s₃ hs₃ hg₃ hd => ?_
    refine (keeps_valuesNamed hs₃).bind fun vs s₄ hs₄ hg₄ hvs => ?_
    refine (keeps_valuesNamed hs₄).bind fun ws s₅ hs₅ hg₅ hws => ?_
    have hg₃₅ := hg₄.trans hg₅
    refine keeps_append hs₅ b _ (fun w hw => ?_) (fun target ht => ?_)
    · rcases List.mem_cons.1 hw with rfl | hw
      · exact Nat.lt_of_lt_of_le hv ((hg₂.trans hg₃).trans hg₃₅).values
      · rcases List.mem_append.1 hw with hw | hw
        · exact Nat.lt_of_lt_of_le (hvs w hw) hg₅.values
        · exact hws w hw
    · simp only [Operation.targets, List.mem_cons, List.not_mem_nil, or_false] at ht
      rcases ht with rfl | rfl
      · exact Nat.lt_of_lt_of_le hc (hg₃.trans hg₃₅).blocks
      · exact Nat.lt_of_lt_of_le hd hg₃₅.blocks
  | compare predicate lhs rhs =>
    refine (keeps_valueNamed hs lhs).bind fun v s₁ hs₁ _ hv => ?_
    refine (keeps_valueNamed hs₁ rhs).bind fun w s₂ hs₂ hg₂ hw => ?_
    have hv₂ := Nat.lt_of_lt_of_le hv hg₂.values
    exact keeps_append hs₂ b _ (by simp [Operation.operands, hv₂, hw]) (by simp [Operation.targets])
  | const ty value =>
    rw [resolveOperation]
    split
    · refine keeps_build (Q := fun (v : ValueId) q => v.index < q.values.size) hs
        ⟨hs.built.addConstant value, grown_addValue _ _, ?_⟩
      simp [addConstant, addValue]
    · exact keeps_throw _
  | nop =>
    exact keeps_append hs b .nop (by simp [Operation.operands]) (by simp [Operation.targets])
  | ret ty value =>
    refine (keeps_valueNamed hs value).bind fun v s₁ hs₁ _ hv => ?_
    exact keeps_append hs₁ b _ (by simpa [Operation.operands] using hv)
      (by simp [Operation.targets])

theorem keeps_declare (hs : s.Sound) (name : String) {v : ValueId}
    (hv : v.index < s.program.values.size) : Keeps (declare name v) s fun _ _ => True := by
  refine (keeps_modify ⟨hs.built, ?_⟩ rfl).mono fun _ _ _ => trivial
  rw [List.forall_mem_cons]
  exact ⟨hv, hs.names⟩

theorem keeps_resolveInstruction (hs : s.Sound) (functions : List FunctionDecl)
    (hlabels : ∀ x ∈ labels, x.2.index < s.program.blocks.size) (caller : FunctionId) (b : BlockId)
    (decl : InstructionDecl) :
    Keeps (resolveInstruction functions labels caller b decl) s fun _ _ => True := by
  refine (keeps_resolveOperation hs functions hlabels caller b decl.operation).bind
    fun v s₁ hs₁ _ hv => ?_
  split
  · exact keeps_declare hs₁ _ hv
  · exact keeps_pure hs₁ trivial

/-! ### Functions -/

/-- The parameters of the other blocks `decls` are declared, and their labels are of blocks that
exist. -/
theorem keeps_resolveBlocks (f : FunctionId) {decls : List BlockDecl} :
    ∀ {s : Resolution} {labels : List (String × BlockId)}, s.Sound →
      (∀ x ∈ labels, x.2.index < s.program.blocks.size) →
      Keeps (resolveBlocks f decls labels) s fun labels' s' =>
        ∀ x ∈ labels', x.2.index < s'.program.blocks.size := by
  induction decls with
  | nil =>
    intro s labels hs hlabels
    exact keeps_pure hs hlabels
  | cons decl decls ih =>
    intro s labels hs hlabels
    rw [resolveBlocks]
    refine (keeps_build (Q := fun (b : BlockId) q => b.index < q.blocks.size) hs
      (hs.built.addBlock f (some decl.label))).bind fun b s₁ hs₁ hg₁ hb => ?_
    -- each round adds one parameter, so the new block and the labels keep existing
    let I : Resolution → Prop := fun s' => Grown s₁.program s'.program
    refine (keeps_forIn (I := I) hs₁ (Grown.refl _) fun x _ s' hs' hI => ?_).bind
      fun _ s₂ hs₂ _ hI => ?_
    · refine (keeps_build (Q := fun (v : ValueId) q => v.index < q.values.size) hs'
        (hs'.built.addParameter b x.2)).bind fun v s₂ hs₂ hg₂ hv => ?_
      refine (keeps_declare hs₂ x.1 hv).bind fun _ s₃ hs₃ hg₃ _ => ?_
      exact keeps_pure hs₃ ⟨rfl, Grown.trans hI (hg₂.trans hg₃)⟩
    dsimp only
    split
    · exact keeps_throw _
    · refine ih hs₂ fun x hx => ?_
      rcases List.mem_append.1 hx with hx | hx
      · exact Nat.lt_of_lt_of_le (hlabels x hx) (hg₁.trans hI).blocks
      · rw [List.mem_singleton.1 hx]
        exact Nat.lt_of_lt_of_le hb hI.blocks

/-- Giving the block `b` another `label` keeps everything. -/
theorem built_relabel (h : p.Built) (b : BlockId) (label : String) :
    (Program.modifyBlock b (fun block => { block with label }) p).2.Built :=
  h.modifyBlock (fun _ hv => h.instruction hv) (h.ascending b) (fun _ _ hv => h.parameter hv)
    (List.Subset.refl _) (List.Subset.refl _)

/-- The entry of `f` gets the label that the text gives it. -/
theorem keeps_resolveEntry (hs : s.Sound) (hf : f.index < s.program.functions.size)
    (decl : BlockDecl) :
    Keeps (resolveEntry f decl) s fun x s' => x.2.index < s'.program.blocks.size := by
  unfold resolveEntry
  dsimp only
  split
  · exact keeps_throw _
  refine keeps_get_bind ?_
  have hentry : (s.program.function f).entry.index < s.program.blocks.size :=
    hs.built.block_lt hf List.mem_cons_self
  refine (keeps_build (Q := fun _ q => (s.program.function f).entry.index < q.blocks.size) hs
    ⟨built_relabel hs.built _ decl.label, grown_modifyBlock _ _ _, ?_⟩).bind
    fun _ s₁ hs₁ _ h => keeps_pure hs₁ h
  exact Nat.lt_of_lt_of_le hentry (grown_modifyBlock _ _ _).blocks

/-- The body of `f` is read. -/
theorem keeps_resolveBody (hs : s.Sound) (functions : List FunctionDecl)
    (hf : f.index < s.program.functions.size) (decls : List BlockDecl) :
    Keeps (resolveBody functions f decls) s fun _ _ => True := by
  cases decls with
  | nil => exact keeps_get_bind (keeps_throw _)
  | cons entry others =>
    rw [resolveBody]
    refine keeps_get_bind ?_
    -- the arguments are parameters of the entry, which exist
    have hargs : ∀ x ∈ (s.program.function f).args.reverse, x.2.index < s.program.values.size := by
      intro x hx
      obtain ⟨i, hi⟩ := List.getElem?_of_mem (hs.built.arg hf (List.mem_reverse.1 hx))
      exact (hs.built.parameter hi).1
    refine (keeps_modify ⟨hs.built, hargs⟩ rfl).bind ?_
    rintro - s₁ hs₁ - rfl
    refine (keeps_resolveEntry hs₁ hf entry).bind fun first s₂ hs₂ _ hfirst => ?_
    refine (keeps_resolveBlocks f hs₂ (by simpa using hfirst)).bind
      fun labels s₃ hs₃ _ hlabels => ?_
    -- instructions are read with all labels known
    let I : Resolution → Prop := fun s' => ∀ x ∈ labels, x.2.index < s'.program.blocks.size
    refine (keeps_forIn (I := I) hs₃ hlabels fun x _ s' hs' hI => ?_).bind
      fun _ s' hs' _ _ => keeps_pure hs' trivial
    refine (keeps_forIn (I := I) hs' hI fun decl _ s'' hs'' hI' => ?_).bind
      fun _ s'' hs'' _ hI' => keeps_pure hs'' ⟨rfl, hI'⟩
    have hinstruction := keeps_resolveInstruction hs'' functions hI' f x.2.2 decl
    refine (hinstruction.later (I := I) fun s₄ hgrown y hy => ?_).bind
      fun _ s₄ hs₄ _ hI₄ => keeps_pure hs₄ ⟨rfl, hI₄⟩
    exact Nat.lt_of_lt_of_le (hI' y hy) hgrown.blocks

theorem keeps_resolveFunction (hs : s.Sound) (functions : List FunctionDecl) {m : ModuleId}
    (hm : m.index < s.program.modules.size) (decl : FunctionDecl) :
    Keeps (resolveFunction functions m decl) s fun _ _ => True := by
  unfold resolveFunction
  refine keeps_get_bind ?_
  dsimp only
  split
  · exact keeps_throw _
  refine (keeps_build (Q := fun (f : FunctionId) q => f.index < q.functions.size) hs
    (hs.built.addFunction hm decl.path decl.args decl.returnType decl.blocks.isNone)).bind
    fun f s₁ hs₁ _ hf => ?_
  split
  · exact keeps_pure hs₁ trivial
  · exact keeps_resolveBody hs₁ functions hf _

/-- The program `p` of a text is built. -/
theorem built_of_resolve {functions : List FunctionDecl} (h : resolve functions = .ok p) :
    p.Built := by
  have hall : Keeps (resolveAll functions) {} fun _ _ => True := by
    have hempty : Resolution.Sound {} := ⟨built_empty, by simp⟩
    -- the module of the text comes first, and functions go into it
    have hmodule : (addModule ({} : Program)).2.Built ∧ Grown {} (addModule {}).2 ∧
        (addModule ({} : Program)).1.index < (addModule {}).2.modules.size :=
      ⟨built_empty.addModule, ⟨by simp, by simp, by simp, by simp⟩, by simp [addModule]⟩
    refine (keeps_build (Q := fun (m : ModuleId) q => m.index < q.modules.size) hempty
      hmodule).bind fun m s₁ hs₁ _ hm => ?_
    let I : Resolution → Prop := fun s' => m.index < s'.program.modules.size
    refine (keeps_forIn (I := I) hs₁ hm fun decl _ s' hs' hI => ?_).bind fun _ s₂ hs₂ _ _ => ?_
    · refine ((keeps_resolveFunction hs' functions hI decl).later (I := I)
        fun s'' hgrown => Nat.lt_of_lt_of_le hI hgrown.modules).bind
        fun _ s'' hs'' _ hI' => keeps_pure hs'' ⟨rfl, hI'⟩
    · refine keeps_get_bind ?_
      split
      · exact keeps_throw _
      · exact keeps_pure hs₂ trivial
  cases hrun : resolveAll functions {} with
  | error fault =>
    have hresolve : resolve functions = .error fault := by
      unfold resolve StateT.run
      rw [hrun]
      rfl
    rw [hresolve] at h
    cases h
  | ok r =>
    have hresolve : resolve functions = .ok r.2.program := by
      unfold resolve StateT.run
      rw [hrun]
      rfl
    rw [hresolve] at h
    cases h
    exact (hall r.1 r.2 hrun).1.built

/-! ### Loading -/

/-- A program `p` that was loaded was read from its `text`, resolved, and has passed the check. -/
theorem steps_of_load (h : load text = .ok p) :
    ∃ functions, read text = .ok functions ∧ resolve functions = .ok p ∧ p.validate = .ok () := by
  unfold load at h
  obtain ⟨functions, hread, h⟩ := bind_eq_ok_iff.1 h
  obtain ⟨q, hresolve, h⟩ := bind_eq_ok_iff.1 h
  obtain ⟨r, hvalidate, h⟩ := bind_eq_ok_iff.1 h
  obtain rfl : q = p := by cases h; rfl
  refine ⟨functions, hread, ?_, ?_⟩
  · cases hrun : resolve functions with
    | error fault => simp [hrun, Except.mapError] at hresolve
    | ok q' => simpa [hrun, Except.mapError] using hresolve
  · cases hrun : q.validate with
    | error fault => simp [hrun, Except.mapError] at hvalidate
    | ok r' => rfl

/-- A program `p` that was loaded is built and has passed the check. -/
theorem built_and_valid_of_load (h : load text = .ok p) : p.Built ∧ p.Valid := by
  obtain ⟨functions, -, hresolve, hvalidate⟩ := steps_of_load h
  exact ⟨built_of_resolve hresolve, validate_eq_ok_iff.1 hvalidate⟩

/-- The functions `f` with a body of a program that was loaded. -/
theorem hasBody_of_load (h : load text = .ok p) (hf : f ∈ p.bodies) : p.HasBody f := by
  obtain ⟨hbuilt, hvalid⟩ := built_and_valid_of_load h
  obtain ⟨hmem, hdecl⟩ := List.mem_filter.1 hf
  obtain ⟨fs, hfs, hmem⟩ := List.mem_flatten.1 hmem
  have hfunction := hvalid.functions fs hfs f hmem
  rw [ValidFunction, if_neg (by simpa using hdecl)] at hfunction
  obtain ⟨i, hi⟩ := List.getElem?_of_mem hfs
  refine ⟨hbuilt, hbuilt.member_lt (m := ⟨i⟩) ?_, hfunction⟩
  rwa [functionsOf, ← Array.getElem?_toList, hi]

end FlowFacts.Source
