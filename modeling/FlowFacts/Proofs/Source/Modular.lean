import FlowFacts.Proofs.Flow.Relocated
import FlowFacts.Proofs.Source.Relocated

/-!
# A function is analysed for itself

The report on a function depends on its own text only, and on the types of the results of the
functions it calls.  If two texts contain the same function, then the program of one contains it
at another place than the program of the other: what stands before it gives its values other
numbers, and what stands behind it adds branches to its blocks from nowhere else
(`Loaded.mem_preds_iff`).  So the two reports are the same (`report_modular`), however the other
functions are ordered and whatever their bodies are.

## Main definitions

* `Placed` — a function of a text with its place in the program.
* `FunctionDecl.Calls`, `FunctionDecl.SameResults` — calls, and callees with the same results.

## Main results

* `Resolved.exists_placed` — each function of a text has a place.
* `Placed.relocates` — the places of a function in two programs.
* `report_modular` — the reports on a function of two texts.
-/

namespace FlowFacts

namespace Program

variable {p : Program} {b c : BlockId} {v : ValueId}

/-- The blocks `b` that branch to `c` are those with an instruction that does. -/
theorem Loaded.mem_preds_iff (h : p.Loaded) : b ∈ (p.block c).preds ↔
    ∃ v ∈ (p.block b).instructions, ∃ op, p.operation? v = some op ∧
      ∃ target ∈ op.targets, target.block = c := by
  constructor
  · intro hb
    obtain ⟨op, hmem, htarget⟩ := h.preds b c hb
    obtain ⟨v, hlt, hvalue⟩ := exists_value_of_mem hmem
    obtain ⟨vs, bs, hzero, -, hlast, -, hregion⟩ := h.regions
    obtain ⟨k, hk, hfirst, hnext⟩ := exists_between hzero (hlast ▸ hlt)
    have hheld := (hregion ⟨k⟩ hk).held v hfirst hnext
    rw [Held, hvalue] at hheld
    exact ⟨v, hheld.2.1, op, operation?_eq_some_iff.2 ⟨b, hvalue⟩, htarget⟩
  · rintro ⟨v, hv, op, hop, target, htarget, rfl⟩
    exact h.built.pred (h.built.instruction_of_mem hv hop) htarget

end Program

namespace Source

open Program

/-! ### Places -/

section

variable {functions ds : List FunctionDecl} {d : FunctionDecl} {p₀ q₀ p : Program} {i : Nat}

/-- A function `d` of a text with its place in the program `p`: what was there before it, `p₀`,
and what was there with it, `q₀`. -/
structure Placed (functions : List FunctionDecl) (d : FunctionDecl) (p₀ q₀ p : Program) :
    Prop where
  /-- It could be the next one. -/
  resolves : FunctionResolves functions ⟨0⟩ p₀ d
  /-- It was read. -/
  read : FunctionRead functions ⟨0⟩ d p₀ q₀
  /-- Others came behind it. -/
  grows : q₀.Grows p

theorem Resolved.size_functions (h : Resolved functions ds p) : p.functions.size = ds.length := by
  induction h with
  | nil => rfl
  | snoc _ _ hread ih => rw [hread.size, ih, List.length_append, List.length_singleton]

/-- The function `d` of a text has a place. -/
theorem Resolved.exists_placed (h : Resolved functions ds p) (hd : ds[i]? = some d) :
    ∃ p₀ q₀, Placed functions d p₀ q₀ p ∧ p₀.functions.size = i := by
  induction h with
  | nil => simp at hd
  | @snoc ds d' p q h hresolves hread ih =>
    have hi := (List.getElem?_eq_some_iff.1 hd).1
    rw [List.length_append, List.length_singleton] at hi
    rcases Nat.lt_or_eq_of_le (Nat.le_of_lt_succ hi) with hlt | rfl
    · rw [List.getElem?_append_left hlt] at hd
      obtain ⟨p₀, q₀, hplaced, hsize⟩ := ih hd
      exact ⟨p₀, q₀, { hplaced with grows := hplaced.grows.trans hread.grows }, hsize⟩
    · rw [List.getElem?_append_right (Nat.le_refl _), Nat.sub_self] at hd
      obtain rfl : d' = d := by simpa using hd
      exact ⟨p, q, ⟨hresolves, hread, Grows.refl q⟩, h.size_functions⟩

theorem Placed.function_eq (h : Placed functions d p₀ q₀ p) :
    p.function ⟨p₀.functions.size⟩ = q₀.function ⟨p₀.functions.size⟩ :=
  h.grows.function _ (h.read.size ▸ Nat.lt_succ_self _)

theorem Placed.signature_eq (h : Placed functions d p₀ q₀ p) :
    (p.function ⟨p₀.functions.size⟩).path = d.path ∧
    (p.function ⟨p₀.functions.size⟩).arity = d.arity ∧
    (p.function ⟨p₀.functions.size⟩).returnType = d.returnType := by
  rw [h.function_eq, h.read.function]
  exact ⟨rfl, by simp [Function.arity, FunctionDecl.arity], rfl⟩

end

/-! ### Callees -/

/-- The function `d` calls the one with the name `path` and `arity` arguments. -/
def FunctionDecl.Calls (d : FunctionDecl) (path : List String) (arity : Nat) : Prop :=
  ∃ blocks ∈ d.blocks, ∃ x ∈ blocks.flatMap BlockDecl.body, ∃ args,
    x.operation = .call path args ∧ args.length = arity

/-- The one of the `functions` of a text that a call means. -/
def calleeOf? (functions : List FunctionDecl) (path : List String) (arity : Nat) :
    Option FunctionDecl :=
  functions.find? fun c => c.path == path && c.arity == arity

/-- The calls of `d` mean functions with results of the same types in two texts. -/
def FunctionDecl.SameResults (d : FunctionDecl) (functions functions' : List FunctionDecl) : Prop :=
  ∀ path arity, d.Calls path arity →
    (calleeOf? functions path arity).map FunctionDecl.returnType =
      (calleeOf? functions' path arity).map FunctionDecl.returnType

section

variable {functions : List FunctionDecl} {d c : FunctionDecl} {path : List String} {arity : Nat}
  {site : Site} {b : BlockId} {callee : FunctionId} {args : List ValueId}

theorem calls_iff : d.Calls path arity ↔ ∃ x ∈ d.layout.flatMap BlockDecl.body, ∃ args,
    x.operation = .call path args ∧ args.length = arity := by
  unfold FunctionDecl.Calls FunctionDecl.layout
  rcases d.blocks with _ | _ | ⟨entry, others⟩ <;> simp

theorem exists_call_of_mem_bodyValues {ds : List InstructionDecl} {k : BlockId} :
    ∀ {scope : Scope} {n : Nat},
      .instruction b (.call callee args) ∈ bodyValues site k scope n ds →
        ∃ x ∈ ds, ∃ path names, x.operation = .call path names ∧
          callee = site.callee path names.length := by
  induction ds with
  | nil => exact fun h => absurd h List.not_mem_nil
  | cons d ds ih =>
    intro scope n h
    rcases List.mem_cons.1 h with heq | h
    · refine ⟨d, List.mem_cons_self, ?_⟩
      cases hop : d.operation with
      | call path names =>
        rw [hop] at heq
        cases heq
        exact ⟨path, names, rfl, rfl⟩
      | _ =>
        rw [hop] at heq
        cases heq
    · obtain ⟨x, hx, hcall⟩ := ih h
      exact ⟨x, List.mem_cons_of_mem d hx, hcall⟩

/-- A call among the values of the lines of `ds` is a call of the text. -/
theorem exists_call_of_mem_bodiesValues {ds : List BlockDecl} : ∀ {scope : Scope} {n k : Nat},
    .instruction b (.call callee args) ∈ bodiesValues site scope n k ds →
      ∃ x ∈ ds.flatMap BlockDecl.body, ∃ path names, x.operation = .call path names ∧
        callee = site.callee path names.length := by
  induction ds with
  | nil => exact fun h => absurd h List.not_mem_nil
  | cons d ds ih =>
    intro scope n k h
    rw [List.flatMap_cons]
    rcases List.mem_append.1 h with h | h
    · obtain ⟨x, hx, hcall⟩ := exists_call_of_mem_bodyValues h
      exact ⟨x, List.mem_append_left _ hx, hcall⟩
    · obtain ⟨x, hx, hcall⟩ := ih h
      exact ⟨x, List.mem_append_right _ hx, hcall⟩

theorem not_mem_headsValues {op : Operation} {ds : List BlockDecl} : ∀ {k : Nat},
    Value.instruction b op ∉ headsValues k ds := by
  induction ds with
  | nil => exact List.not_mem_nil
  | cons d ds ih => exact fun h => (List.mem_append.1 h).elim not_mem_paramValues ih

/-- A call that means a function means the first one with its `path` and `arity`. -/
theorem Site.exists_callee (site : Site)
    (h : (site.functions.findIdx? fun f => f.path == path && f.arity == arity).isSome) :
    ∃ k c, site.callee path arity = ⟨k⟩ ∧ site.functions[k]? = some c ∧
      calleeOf? site.functions path arity = some c ∧ c.path = path ∧ c.arity = arity := by
  obtain ⟨k, hk⟩ := Option.isSome_iff_exists.1 h
  obtain ⟨hlt, hkey, -⟩ := List.findIdx?_eq_some_iff_getElem.1 hk
  rw [Bool.and_eq_true, beq_iff_eq, beq_iff_eq] at hkey
  refine ⟨k, site.functions[k], ?_, List.getElem?_eq_getElem hlt, ?_, hkey⟩
  · rw [Site.callee, Site.callee?, hk]
    rfl
  · rw [calleeOf?, List.find?_eq_bind_findIdx?_getElem?, hk]
    exact List.getElem?_eq_getElem hlt

end

/-! ### Two texts -/

/-- The program `p` with the `functions` of its text. -/
structure LoadedFrom (functions : List FunctionDecl) (p : Program) : Prop extends p.Loaded where
  /-- The functions were resolved. -/
  resolved : Resolved functions functions p
  /-- Their words are names. -/
  worded : ∀ d ∈ functions, d.Worded
  /-- All callees exist. -/
  called : ∀ d ∈ functions, ∀ x ∈ d.layout.flatMap BlockDecl.body, x.operation.CalledIn functions

theorem loadedFrom_of_load {text : String} {functions : List FunctionDecl} {p : Program}
    (hload : load text = .ok p) (hread : read text = .ok functions) : LoadedFrom functions p := by
  obtain ⟨functions', hread', hresolve, -⟩ := steps_of_load hload
  obtain rfl : functions = functions' := Except.ok.inj (hread.symm.trans hread')
  obtain ⟨hresolved, hcalled⟩ := resolved_and_called_of_resolve hresolve
  exact ⟨loaded_of_load hload, hresolved, worded_of_read hread, hcalled⟩

section

variable {functions functions' : List FunctionDecl} {d : FunctionDecl} {p q p₀ q₀ p₀' q₀' : Program}
  {r : Relocation} {v : ValueId}

/-- The region of the function `d` of a text. -/
theorem Placed.region (h : Placed functions d p₀ q₀ p) (hp : LoadedFrom functions p)
    (hd : d ∈ functions) :
    p.Region p.functions.size ⟨p₀.functions.size⟩ p₀.values.size q₀.values.size p₀.blocks.size
      q₀.blocks.size := by
  have hlt : p₀.functions.size < q₀.functions.size := h.read.size ▸ Nat.lt_succ_self _
  refine frame_region (region_of_functionRead h.read h.resolves (hp.worded d hd) ?_ ?_) h.grows hlt
  · exact Nat.le_of_eq hp.resolved.size_functions.symm
  · exact Nat.lt_of_lt_of_le hlt h.grows.functions

/-- The function with number `k` has the signature that it has in the text. -/
theorem LoadedFrom.signature_eq (hp : LoadedFrom functions p) {k : Nat} {c : FunctionDecl}
    (hc : functions[k]? = some c) : (p.function ⟨k⟩).path = c.path ∧
      (p.function ⟨k⟩).arity = c.arity ∧ (p.function ⟨k⟩).returnType = c.returnType := by
  obtain ⟨p₁, q₁, hplaced, rfl⟩ := hp.resolved.exists_placed hc
  exact hplaced.signature_eq

/-- If `d` has a body, it has passed the check. -/
theorem Placed.hasBody (h : Placed functions d p₀ q₀ p) (hp : LoadedFrom functions p)
    (hbody : d.blocks.isSome) : p.HasBody ⟨p₀.functions.size⟩ := by
  have hlt : p₀.functions.size < p.functions.size :=
    Nat.lt_of_lt_of_le (h.read.size ▸ Nat.lt_succ_self _) h.grows.functions
  have hmem : (List.range p.functions.size).map FunctionId.mk ∈ p.modules.toList := by
    rw [hp.modules]
    simp
  have hvalid := hp.valid.functions _ hmem ⟨p₀.functions.size⟩
    (List.mem_map.2 ⟨_, List.mem_range.2 hlt, rfl⟩)
  have hdecl : (p.function ⟨p₀.functions.size⟩).isDeclaration = false := by
    rw [h.function_eq, h.read.function]
    simpa using hbody
  rw [ValidFunction, hdecl] at hvalid
  exact ⟨hp.built, hlt, hvalid⟩

/-- The call of a value `v` of the function `d` is a call of its text. -/
theorem Placed.exists_call (h : Placed functions d p₀ q₀ p) {callee : FunctionId}
    {args : List ValueId} (hfirst : p₀.values.size ≤ v.index) (hlast : v.index < q₀.values.size)
    (hop : p.operation? v = some (.call callee args)) :
    ∃ x ∈ d.layout.flatMap BlockDecl.body, ∃ path names, x.operation = .call path names ∧
      callee = (d.site functions p₀).callee path names.length := by
  obtain ⟨b, hvalue⟩ := operation?_eq_some_iff.1 hop
  rw [h.grows.value v hlast, value_eq_getElem?, h.read.values, List.append_assoc,
    List.getElem?_append_right (by simpa using hfirst)] at hvalue
  cases hget : (headsValues p₀.blocks.size d.layout ++
      d.lineValues functions p₀)[v.index - p₀.values.toList.length]? with
  | none =>
    rw [hget] at hvalue
    cases hvalue
  | some x =>
    rw [hget] at hvalue
    obtain rfl : x = .instruction b (.call callee args) := hvalue
    rcases List.mem_append.1 (List.mem_of_getElem? hget) with hmem | hmem
    · exact absurd hmem not_mem_headsValues
    · exact exists_call_of_mem_bodiesValues hmem

/-- The callees of the function `d` of two texts have the same signatures. -/
theorem Placed.callee_eq (h : Placed functions d p₀ q₀ p) (hp : LoadedFrom functions p)
    (hq : LoadedFrom functions' q) (hd : d ∈ functions) (hd' : d ∈ functions')
    (hsame : d.SameResults functions functions')
    (hr : d.Relocates functions functions' p₀ p₀' r) {callee : FunctionId} {args : List ValueId}
    (hfirst : p₀.values.size ≤ v.index) (hlast : v.index < q₀.values.size)
    (hop : p.operation? v = some (.call callee args)) :
    (q.function (r.callee callee)).path = (p.function callee).path ∧
    (q.function (r.callee callee)).arity = (p.function callee).arity ∧
    (q.function (r.callee callee)).returnType = (p.function callee).returnType := by
  obtain ⟨x, hx, path, names, hcall, rfl⟩ := h.exists_call hfirst hlast hop
  have hcalled := hp.called d hd x hx
  have hcalled' := hq.called d hd' x hx
  rw [hcall] at hcalled hcalled'
  obtain ⟨k, c, hk, hc, hfound, hpath, harity⟩ :=
    (d.site functions p₀).exists_callee hcalled
  obtain ⟨k', c', hk', hc', hfound', hpath', harity'⟩ :=
    (d.site functions' p₀').exists_callee hcalled'
  have hresults : c.returnType = c'.returnType := by
    have hmap := hsame path names.length (calls_iff.2 ⟨x, hx, names, hcall, rfl⟩)
    rw [show calleeOf? functions path names.length = some c from hfound,
      show calleeOf? functions' path names.length = some c' from hfound'] at hmap
    exact Option.some.inj hmap
  have hcallee := hr.callee path names.length
    (by rw [Site.callee?, Option.isSome_map]; exact hcalled)
  rw [← hcallee, hk, hk']
  obtain ⟨h₁, h₂, h₃⟩ := hp.signature_eq hc
  obtain ⟨h₁', h₂', h₃'⟩ := hq.signature_eq hc'
  exact ⟨by rw [h₁, h₁', hpath, hpath'], by rw [h₂, h₂', harity, harity'],
    by rw [h₃, h₃', hresults]⟩

section

variable (h : Placed functions d p₀ q₀ p) (h' : Placed functions' d p₀' q₀' q)
  (hp : LoadedFrom functions p) (hd : d ∈ functions)
  (hr : d.Relocates functions functions' p₀ p₀' r)

include h h' hp hd hr

/-- A block `b` of `d` in the programs of two texts. -/
theorem Placed.block_eq (hb : b ∈ (p.function ⟨p₀.functions.size⟩).blocks) :
    (q.block (r.block b)).label = (p.block b).label ∧
    (q.block (r.block b)).params = (p.block b).params.map (ValueId.shift r.values) ∧
    (q.block (r.block b)).instructions =
      (p.block b).instructions.map (ValueId.shift r.values) := by
  have hmem := hb
  rw [(h.region hp hd).blocks] at hmem
  obtain ⟨i, hi, rfl⟩ := List.mem_map.1 hmem
  obtain ⟨hle, hlt⟩ := List.mem_range'_1.1 hi
  rw [h.read.blocks] at hlt
  obtain ⟨j, rfl⟩ := Nat.exists_eq_add_of_le hle
  -- what was read with the function stays in both programs
  have hparts := eq_of_parts (h.grows.block ⟨p₀.blocks.size + j⟩
    (by rw [h.read.blocks]; simp only; omega))
  have hparts' := eq_of_parts (h'.grows.block ⟨p₀'.blocks.size + j⟩
    (by rw [h'.read.blocks]; simp only; omega))
  obtain ⟨hlabel, hparams, hinstructions⟩ :=
    FunctionRead.block_eq hr h.read h'.read (h.function_eq ▸ hb)
  rw [hr.blocks j (by omega)] at hlabel hparams hinstructions ⊢
  rw [hparts.1, hparts.2.2.1, hparts.2.2.2, hparts'.1, hparts'.2.2.1, hparts'.2.2.2]
  exact ⟨hlabel, hparams, hinstructions⟩

/-- A value `v` of `d` in the programs of two texts. -/
theorem Placed.value_eq (hfirst : p₀.values.size ≤ v.index) (hlast : v.index < q₀.values.size) :
    q.value (v.shift r.values) = (p.value v).relocate r := by
  have hlast' : (v.shift r.values).index < q₀'.values.size := by
    have hsize := h.read.size_values
    have hsize' := h'.read.size_values
    have hshift := hr.values
    rw [ValueId.index_shift]
    omega
  rw [h.grows.value v hlast, h'.grows.value _ hlast']
  exact FunctionRead.value_eq hr h.read h'.read h.resolves (hp.called d hd) hfirst hlast

/-- An instruction `v` of `d` in the programs of two texts. -/
theorem Placed.operation?_eq (hb : b ∈ (p.function ⟨p₀.functions.size⟩).blocks)
    (hv : v ∈ (p.block b).instructions) :
    q.operation? (v.shift r.values) = (p.operation? v).map (Operation.relocate r) := by
  obtain ⟨hfirst, hlast⟩ := (h.region hp hd).instruction b hb v hv
  rw [operation?, operation?, h.value_eq h' hp hd hr hfirst hlast]
  cases p.value v <;> rfl

/-- The branches from a block `c` of `d` in the programs of two texts. -/
theorem Placed.mem_preds_iff (hq : LoadedFrom functions' q) {c : BlockId}
    (hc : c ∈ (p.function ⟨p₀.functions.size⟩).blocks) :
    r.block c ∈ (q.block (r.block b)).preds ↔ c ∈ (p.block b).preds := by
  -- a branch is an instruction of the block that branches
  rw [hq.mem_preds_iff, hp.mem_preds_iff, (h.block_eq h' hp hd hr hc).2.2]
  constructor
  · rintro ⟨w, hw, op, hop, target, htarget, heq⟩
    obtain ⟨v, hv, rfl⟩ := List.mem_map.1 hw
    rw [h.operation?_eq h' hp hd hr hc hv, Option.map_eq_some_iff] at hop
    obtain ⟨op, hop, rfl⟩ := hop
    rw [Operation.targets_relocate] at htarget
    obtain ⟨target, hmem, rfl⟩ := List.mem_map.1 htarget
    exact ⟨v, hv, op, hop, target, hmem, r.injective heq⟩
  · rintro ⟨v, hv, op, hop, target, htarget, rfl⟩
    refine ⟨_, List.mem_map_of_mem hv, op.relocate r, ?_, target.relocate r, ?_, rfl⟩
    · rw [h.operation?_eq h' hp hd hr hc hv, hop]
      rfl
    · rw [Operation.targets_relocate]
      exact List.mem_map_of_mem htarget

end

/-- The places of the function `d` in the programs of two texts. -/
theorem Placed.relocates (h : Placed functions d p₀ q₀ p) (h' : Placed functions' d p₀' q₀' q)
    (hp : LoadedFrom functions p) (hq : LoadedFrom functions' q) (hd : d ∈ functions)
    (hd' : d ∈ functions') (hbody : d.blocks.isSome) (hsame : d.SameResults functions functions')
    (hr : d.Relocates functions functions' p₀ p₀' r) :
    p.Relocates q r ⟨p₀.functions.size⟩ ⟨p₀'.functions.size⟩
      fun v => p₀.values.size ≤ v.index ∧ v.index < q₀.values.size := by
  have hregion := h.region hp hd
  have hfunction := FunctionRead.function_eq hr h.read h'.read
  rw [← h.function_eq, ← h'.function_eq] at hfunction
  refine
    { body := h.hasBody hp hbody
      body' := h'.hasBody hq hbody
      path := by rw [hfunction]
      args := by rw [hfunction]
      declaration := by rw [hfunction]
      blocks := by rw [hfunction]; rfl
      nodup := ?_
      label := fun b hb => (h.block_eq h' hp hd hr hb).1
      params := fun b hb => (h.block_eq h' hp hd hr hb).2.1
      instructions := fun b hb => (h.block_eq h' hp hd hr hb).2.2
      preds := fun b hb c hc => h.mem_preds_iff h' hp hd hr hq hc
      value := fun v hv => h.value_eq h' hp hd hr hv.1 hv.2
      callee := fun v hv callee args hop =>
        h.callee_eq hp hq hd hd' hsame hr hv.1 hv.2 hop
      param_mem := hregion.param
      instruction_mem := hregion.instruction
      operand_mem := fun v hv op hop w hw => ?_ }
  · have hnodup : (List.range' p₀.blocks.size (q₀.blocks.size - p₀.blocks.size)).Nodup :=
      List.nodup_range'
    rw [hregion.blocks]
    exact hnodup.map fun i j heq => congrArg BlockId.index heq
  · -- an operand was created before, but not before the function
    obtain ⟨b, hval⟩ := operation?_eq_some_iff.1 hop
    exact ⟨((hregion.proper hv.1 hv.2 hval).operand w hw).1,
      Nat.lt_trans (hp.built.operand_lt hval hw) hv.2⟩

/-- The relocation from one place of the function `d` to another. -/
def FunctionDecl.relocation (d : FunctionDecl) (functions functions' : List FunctionDecl)
    (p₀ p₀' : Program) : Relocation where
  values := p₀'.values.size - p₀.values.size
  -- no block may come to where those of the function are
  block c :=
    if p₀.blocks.size ≤ c.index ∧ c.index < p₀.blocks.size + d.layout.length then
      ⟨p₀'.blocks.size + (c.index - p₀.blocks.size)⟩
    else ⟨p₀'.blocks.size + d.layout.length + c.index⟩
  injective := by
    rintro ⟨i⟩ ⟨j⟩ h
    simp only at h
    split at h <;> split at h <;> simp only [BlockId.mk.injEq] at h ⊢ <;> omega
  callee g :=
    match functions[g.index]? with
    | some c => (d.site functions' p₀').callee c.path c.arity
    | none => g

theorem relocates_relocation (hle : p₀.values.size ≤ p₀'.values.size) :
    d.Relocates functions functions' p₀ p₀' (d.relocation functions functions' p₀ p₀') where
  values := (Nat.add_sub_of_le hle).symm
  blocks i hi := by
    simp only [FunctionDecl.relocation]
    rw [if_pos (by omega), Nat.add_sub_cancel_left]
  callee path arity h := by
    rw [Site.callee?, Option.isSome_map] at h
    obtain ⟨k, c, hk, hc, -, rfl, rfl⟩ := Site.exists_callee _ h
    rw [hk]
    simp only [FunctionDecl.relocation]
    rw [show functions[k]? = some c from hc]

/-- Functions `c` and `c'` of a text have different signatures. -/
theorem LoadedFrom.eq_of_signature (hp : LoadedFrom functions p) {c c' : FunctionDecl}
    (hc : c ∈ functions) (hc' : c' ∈ functions) (hpath : c.path = c'.path)
    (harity : c.arity = c'.arity) : c = c' := by
  obtain ⟨k, hk⟩ := List.getElem?_of_mem hc
  obtain ⟨k', hk'⟩ := List.getElem?_of_mem hc'
  have hlt : ∀ {k : Nat} {c : FunctionDecl}, functions[k]? = some c → k < p.functions.size :=
    fun h => hp.resolved.size_functions ▸ (List.getElem?_eq_some_iff.1 h).1
  obtain ⟨h₁, h₂, -⟩ := hp.signature_eq hk
  obtain ⟨h₁', h₂', -⟩ := hp.signature_eq hk'
  have heq : (⟨k⟩ : FunctionId) = ⟨k'⟩ := hp.toLoaded.eq_of_signature (hlt hk) (hlt hk')
    (Prod.ext (h₁.trans (hpath.trans h₁'.symm)) (h₂.trans (harity.trans h₂'.symm)))
  cases heq
  exact Option.some.inj (hk.symm.trans hk')

/-- What callers know of the function `d`. -/
def FunctionDecl.signature (d : FunctionDecl) : List String × Nat × Ty :=
  (d.path, d.arity, d.returnType)

/-- The calls of `d` mean functions with the same results if the functions of the texts have the
same signatures, in any order. -/
theorem sameResults_of_perm (hp : LoadedFrom functions p) (hq : LoadedFrom functions' q)
    (hd : d ∈ functions) (hd' : d ∈ functions')
    (hperm : (functions.map FunctionDecl.signature).Perm (functions'.map FunctionDecl.signature)) :
    d.SameResults functions functions' := by
  intro path arity hcalls
  obtain ⟨x, hx, args, hcall, rfl⟩ := calls_iff.1 hcalls
  have hcalled := hp.called d hd x hx
  have hcalled' := hq.called d hd' x hx
  rw [hcall] at hcalled hcalled'
  obtain ⟨k, c, -, hc, hfound, hpath, harity⟩ :=
    (d.site functions p).exists_callee hcalled
  obtain ⟨k', c', -, hc', hfound', hpath', harity'⟩ :=
    (d.site functions' p).exists_callee hcalled'
  -- the signature of one callee is that of a function of the other text
  obtain ⟨c'', hc'', hsignature⟩ := List.mem_map.1
    (hperm.subset (List.mem_map_of_mem (List.mem_of_getElem? hc)))
  simp only [FunctionDecl.signature, Prod.mk.injEq] at hsignature
  obtain rfl : c'' = c' := hq.eq_of_signature hc'' (List.mem_of_getElem? hc')
    (hsignature.1.trans (hpath.trans hpath'.symm))
    (hsignature.2.1.trans (harity.trans harity'.symm))
  rw [show calleeOf? functions path args.length = some c from hfound,
    show calleeOf? functions' path args.length = some c'' from hfound']
  exact congrArg some hsignature.2.2.symm

/-- The report on the function `d` of two texts. -/
theorem report_eq_of_sameResults {i j : Nat} (hp : LoadedFrom functions p)
    (hq : LoadedFrom functions' q) (hi : functions[i]? = some d) (hj : functions'[j]? = some d)
    (hbody : d.blocks.isSome) (hsame : d.SameResults functions functions') (m : CheckModel)
    (limit : Nat) :
    (m.model.task p ⟨i⟩ limit).examine.report = (m.model.task q ⟨j⟩ limit).examine.report := by
  obtain ⟨p₀, q₀, hplaced, rfl⟩ := hp.resolved.exists_placed hi
  obtain ⟨p₀', q₀', hplaced', rfl⟩ := hq.resolved.exists_placed hj
  have hd := List.mem_of_getElem? hi
  have hd' := List.mem_of_getElem? hj
  -- numbers only grow, so the place with fewer values before it comes first
  rcases Nat.le_total p₀.values.size p₀'.values.size with hle | hle
  · exact ((hplaced.relocates hplaced' hp hq hd hd' hbody hsame
      (relocates_relocation hle)).report_eq m limit).symm
  · exact (hplaced'.relocates hplaced hq hp hd' hd hbody
      (fun path arity hcalls => (hsame path arity hcalls).symm)
      (relocates_relocation hle)).report_eq m limit

end

/-- Two texts contain the same function `d` with a body, one as its function number `i`, the
other as its function number `j`.  If the calls of `d` mean functions with results of the same
types, then the reports on it are equal, for every model of checks and every limit of visits.
This is so if the functions of the texts have the same signatures, in any order and with any
bodies. -/
theorem report_modular {text text' : String} {functions functions' : List FunctionDecl}
    {p q : Program} {d : FunctionDecl} {i j : Nat} (hload : load text = .ok p)
    (hread : read text = .ok functions) (hload' : load text' = .ok q)
    (hread' : read text' = .ok functions') (hi : functions[i]? = some d)
    (hj : functions'[j]? = some d) (hbody : d.blocks.isSome) (m : CheckModel) (limit : Nat) :
    (d.SameResults functions functions' →
      (m.model.task p ⟨i⟩ limit).examine.report = (m.model.task q ⟨j⟩ limit).examine.report) ∧
    ((functions.map FunctionDecl.signature).Perm (functions'.map FunctionDecl.signature) →
      (m.model.task p ⟨i⟩ limit).examine.report = (m.model.task q ⟨j⟩ limit).examine.report) := by
  have hp := loadedFrom_of_load hload hread
  have hq := loadedFrom_of_load hload' hread'
  refine ⟨fun hsame => report_eq_of_sameResults hp hq hi hj hbody hsame m limit, fun hperm => ?_⟩
  exact report_eq_of_sameResults hp hq hi hj hbody
    (sameResults_of_perm hp hq (List.mem_of_getElem? hi) (List.mem_of_getElem? hj) hperm) m limit

/-! ### A function behind another one and before it -/

/-- A function that branches on the result of a call. -/
def branching : FunctionDecl where
  path := ["f"]
  args := [("a", .bool), ("b", .bool)]
  returnType := .bool
  blocks := some [
    { label := "entry", params := [],
      body := [⟨some "c", .call ["g"] ["a"]⟩, ⟨none, .condBranch "c" "left" ["b"] "right" []⟩] },
    { label := "left", params := [("n", .bool)],
      body := [⟨none, .annotate "here"⟩, ⟨none, .ret .bool "n"⟩] },
    { label := "right", params := [], body := [⟨none, .ret .bool "b"⟩] }]

/-- It is the second function, and the first one is a declaration. -/
def branchingLast : String :=
  "module \x7b fn g(x: bool) -> bool fn f(a: bool, b: bool) -> bool \x7b entry(): c = call g(a) " ++
  "cbr c, left(b), right() left(n: bool): annotate here ret bool n right(): ret bool b \x7d \x7d"

/-- It is the first function, and the second one has a body. -/
def branchingFirst : String :=
  "module \x7b fn f(a: bool, b: bool) -> bool \x7b entry(): c = call g(a) cbr c, left(b), " ++
  "right() left(n: bool): annotate here ret bool n right(): ret bool b \x7d " ++
  "fn g(x: bool) -> bool \x7b start(): y = not x ret bool y \x7d \x7d"

/-- The declaration of the one text. -/
def calledHead : FunctionDecl where
  path := ["g"]
  args := [("x", .bool)]
  returnType := .bool
  blocks := none

/-- The function of the other. -/
def calledBody : FunctionDecl :=
  { calledHead with blocks := some [
      { label := "start", params := [],
        body := [⟨some "y", .not "x"⟩, ⟨none, .ret .bool "y"⟩] }] }

theorem sameResults_branching :
    branching.SameResults [calledHead, branching] [branching, calledBody] := by
  rintro path arity ⟨blocks, hblocks, x, hx, args, hop, rfl⟩
  cases hblocks
  simp only [List.flatMap_cons, List.flatMap_nil, List.cons_append, List.nil_append,
    List.append_nil, List.mem_cons, List.not_mem_nil, or_false] at hx
  rcases hx with rfl | rfl | rfl | rfl | rfl <;> cases hop
  decide

/-- The values of the function have other numbers, but the report is the same. -/
theorem branching_report_same : ∃ p q, load branchingLast = .ok p ∧ load branchingFirst = .ok q ∧
    read branchingLast = .ok [calledHead, branching] ∧
    read branchingFirst = .ok [branching, calledBody] ∧
    (p.function ⟨1⟩).args = [("a", ⟨1⟩), ("b", ⟨2⟩)] ∧
    (q.function ⟨0⟩).args = [("a", ⟨0⟩), ("b", ⟨1⟩)] ∧
    branching.SameResults [calledHead, branching] [branching, calledBody] ∧
    ([calledHead, branching].map FunctionDecl.signature).Perm
      ([branching, calledBody].map FunctionDecl.signature) ∧
    ((CheckModel.model {}).task p ⟨1⟩ 64).examine.report =
      ((CheckModel.model {}).task q ⟨0⟩ 64).examine.report := by
  have hread : read branchingLast = .ok [calledHead, branching] := by decide +kernel
  have hread' : read branchingFirst = .ok [branching, calledBody] := by decide +kernel
  obtain ⟨p, hload, hargs⟩ : ∃ p, load branchingLast = .ok p ∧
      (p.function ⟨1⟩).args = [("a", ⟨1⟩), ("b", ⟨2⟩)] :=
    exists_load_of_map (by rw [load, hread]; decide +kernel)
  obtain ⟨q, hload', hargs'⟩ : ∃ q, load branchingFirst = .ok q ∧
      (q.function ⟨0⟩).args = [("a", ⟨0⟩), ("b", ⟨1⟩)] :=
    exists_load_of_map (by rw [load, hread']; decide +kernel)
  have hperm : ([calledHead, branching].map FunctionDecl.signature).Perm
      ([branching, calledBody].map FunctionDecl.signature) := List.Perm.swap _ _ []
  exact ⟨p, q, hload, hload', hread, hread', hargs, hargs', sameResults_branching, hperm,
    (report_modular (i := 1) (j := 0) hload hread hload' hread' rfl rfl rfl {} 64).2 hperm⟩

end Source

end FlowFacts
