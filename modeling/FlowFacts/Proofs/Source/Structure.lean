import FlowFacts.Proofs.Program.Typing
import FlowFacts.Proofs.Source.Local
import FlowFacts.Proofs.Source.Modular

/-!
# Programs from texts are sound

A program that was loaded is put together as its text says.  A block knows exactly those blocks
whose terminators go to it.  The blocks have the labels that were written.  Operands were created
before the instructions that use them, and in the same function, so that following operands in
search of a type comes to an end.  And a call goes to the only function with the path that was
written and with as many arguments, wherever it stands in the text.

## Main definitions

* `Program.CallsAs` — an operation calls what a line says.
* `Program.Structured` — a function is put together as its blocks are written.

## Main results

* `Loaded.mem_preds_iff_edge` — predecessors are the blocks that branch to a block.
* `Placed.forall₂_lines` — the instructions of a block are its lines, without constants.
* `structured_of_load` — programs that were loaded are sound.
-/

namespace FlowFacts

open Source

namespace Program

variable {p : Program} {f : FunctionId} {b c : BlockId} {v w : ValueId} {op : Operation}

/-- The functions of a program `p` that was loaded are those of its module. -/
theorem Loaded.functionsOf_eq (h : p.Loaded) :
    p.functionsOf ⟨0⟩ = (List.range p.functions.size).map FunctionId.mk := by
  simp [functionsOf, h.modules]

theorem Loaded.mem_functionsOf_iff (h : p.Loaded) :
    f ∈ p.functionsOf ⟨0⟩ ↔ f.index < p.functions.size := by
  rw [h.functionsOf_eq, List.mem_map]
  constructor
  · rintro ⟨i, hi, rfl⟩
    exact List.mem_range.1 hi
  · exact fun hf => ⟨f.index, List.mem_range.2 hf, rfl⟩

/-! ### Predecessors -/

/-- Every value `v` is held by a function. -/
theorem Loaded.exists_held (h : p.Loaded) (hv : v.index < p.values.size) :
    ∃ f first, f.index < p.functions.size ∧ p.Held p.functions.size f first v := by
  obtain ⟨vs, bs, hzero, -, hlast, -, hregion⟩ := h.regions
  obtain ⟨k, hk, hfirst, hnext⟩ := exists_between hzero (hlast ▸ hv)
  exact ⟨⟨k⟩, vs k, hk, (hregion ⟨k⟩ hk).held v hfirst hnext⟩

/-- A function `f` with an instruction has a body. -/
theorem Loaded.hasBody (h : p.Loaded) (hf : f.index < p.functions.size)
    (hb : b ∈ (p.function f).blocks) (hv : v ∈ (p.block b).instructions) : p.HasBody f := by
  refine ⟨h.built, hf, ?_⟩
  have hvalid := h.validFunction hf
  unfold ValidFunction at hvalid
  split at hvalid
  · rw [hvalid b hb] at hv
    cases hv
  · exact hvalid

theorem Loaded.exists_hasBody (h : p.Loaded) (hv : v ∈ (p.block b).instructions) :
    ∃ f, p.HasBody f ∧ b ∈ (p.function f).blocks := by
  obtain ⟨hlt, op, hvalue⟩ := h.built.instruction hv
  obtain ⟨f, first, hf, hheld⟩ := h.exists_held hlt
  rw [Held, hvalue] at hheld
  exact ⟨f, h.hasBody hf hheld.1 hv, hheld.1⟩

theorem isTerminator_of_mem_targets {target : Target} (h : target ∈ op.targets) :
    op.isTerminator = true := by
  cases op with
  | branch | condBranch => rfl
  | annotate | not | binary | call | compare | nop | ret => cases h

/-- The block `c` knows exactly those blocks whose terminators go to it. -/
theorem Loaded.mem_preds_iff_edge (h : p.Loaded) : b ∈ (p.block c).preds ↔ p.Edge b c := by
  refine ⟨fun hb => ?_, fun hedge => h.built.mem_preds_of_edge hedge⟩
  obtain ⟨v, hv, op, hop, target, htarget, rfl⟩ := h.mem_preds_iff.1 hb
  obtain ⟨f, hbody, hblock⟩ := h.exists_hasBody hv
  obtain ⟨before, last, op', hlist, hlast, -, hterm, hbefore⟩ := hbody.exists_last hblock
  -- an instruction that branches is the last one
  have hvlast : v = last := by
    rw [hlist, List.mem_append, List.mem_singleton] at hv
    refine hv.resolve_left fun hv => ?_
    have hnot := hbefore v hv
    rw [isTerminator, hop, Option.any_some, isTerminator_of_mem_targets htarget] at hnot
    cases hnot
  obtain rfl : op = op' := Option.some.inj (hop.symm.trans (hvlast ▸ hlast))
  exact ⟨target, mem_successors_iff.2 ⟨op, hterm, htarget⟩, rfl⟩

/-! ### Calls -/

/-- A line and an operation are calls or neither is, and a call goes to the only function of the
module with the path that is written and as many arguments as are passed. -/
def CallsAs (p : Program) : OperationDecl → Operation → Prop
  | .call path names, .call callee args => args.length = names.length ∧
      ∀ g, g ∈ p.functionsOf ⟨0⟩ ∧ (p.function g).path = path ∧
        (p.function g).arity = args.length ↔ g = callee
  | .call .., _ | _, .call .. => False
  | _, _ => True

/-- The function `f` is put together as its `blocks` are written. -/
structure Structured (p : Program) (f : FunctionId) (blocks : List BlockDecl) : Prop where
  /-- Predecessors are the blocks whose terminators go to a block. -/
  preds : ∀ c ∈ (p.function f).blocks, ∀ b, b ∈ (p.block c).preds ↔
    ∃ target ∈ p.successors b, target.block = c
  /-- The labels are those that are written. -/
  labels : p.labels f = blocks.map BlockDecl.label
  /-- No two are the same. -/
  distinct : (p.labels f).Nodup
  /-- Operands were created before, as constants or in the same function. -/
  operands : ∀ b ∈ (p.function f).blocks, ∀ v ∈ (p.block b).instructions, ∀ op,
    p.operation? v = some op → ∀ w ∈ op.operands, w.index < v.index ∧
      ((p.constant? w).isSome ∨ (∃ c ∈ (p.function f).blocks, w ∈ (p.block c).params) ∨
        ∃ c ∈ (p.function f).blocks, w ∈ (p.block c).instructions)
  /-- The instructions of a block are its lines without constants, and calls among them go where
  the line says. -/
  calls : List.Forall₂ (fun (d : BlockDecl) b =>
    List.Forall₂ (fun x v => ∃ op, p.operation? v = some op ∧ p.CallsAs x.operation op)
      (d.body.filter fun x => !x.operation.isConst) (p.block b).instructions)
    blocks (p.function f).blocks

end Program

namespace Source

open Program

variable {functions : List FunctionDecl} {d : FunctionDecl} {p p₀ q₀ : Program} {site : Site}
  {b : BlockId} {v : ValueId} {path : List String} {block : BlockDecl} {blocks : List BlockDecl}

/-- The callee of a line is the only function `g` with the `path` and the number of arguments. -/
theorem LoadedFrom.callee_iff (hp : LoadedFrom functions p) {names : List String}
    (hsite : site.functions = functions)
    (hcalled : OperationDecl.CalledIn functions (.call path names)) {g : FunctionId} :
    g ∈ p.functionsOf ⟨0⟩ ∧ (p.function g).path = path ∧ (p.function g).arity = names.length ↔
      g = site.callee path names.length := by
  have hfound : (site.functions.findIdx?
      fun c => c.path == path && c.arity == names.length).isSome := hsite ▸ hcalled
  obtain ⟨k, c, hk, hc, -, hpath, harity⟩ := site.exists_callee hfound
  rw [hsite] at hc
  obtain ⟨hpath', harity', -⟩ := hp.signature_eq hc
  have hlt : k < p.functions.size := by
    rw [hp.resolved.size_functions]
    exact (List.getElem?_eq_some_iff.1 hc).1
  rw [hk]
  constructor
  · rintro ⟨hg, hgpath, hgarity⟩
    refine hp.toLoaded.eq_of_signature (hp.mem_functionsOf_iff.1 hg) hlt (Prod.ext ?_ ?_)
    · exact hgpath.trans (hpath.symm.trans hpath'.symm)
    · exact hgarity.trans (harity.symm.trans harity'.symm)
  · rintro rfl
    exact ⟨hp.mem_functionsOf_iff.2 hlt, hpath'.trans hpath, harity'.trans harity⟩

/-- A line `x` without a constant becomes an instruction that calls what the line says. -/
theorem LoadedFrom.callsAs_value (hp : LoadedFrom functions p) (hsite : site.functions = functions)
    {x : OperationDecl} {scope : Scope} (hcalled : x.CalledIn functions)
    (hconst : x.isConst = false) (hv : p.value v = x.value site scope b) :
    ∃ op, p.operation? v = some op ∧ p.CallsAs x op := by
  cases x with
  | call path names =>
    refine ⟨_, operation?_eq_some_iff.2 ⟨b, hv⟩, by simp, fun g => ?_⟩
    rw [List.length_map]
    exact hp.callee_iff hsite hcalled
  | const => cases hconst
  | annotate | not | binary | branch | condBranch | compare | nop | ret =>
    exact ⟨_, operation?_eq_some_iff.2 ⟨b, hv⟩, trivial⟩

/-! ### Lines and instructions -/

/-- The values of those lines of `ds` that are no constants. -/
theorem forall₂_bodyIds {Q : InstructionDecl → ValueId → Prop} {ds : List InstructionDecl} :
    ∀ {n : Nat}, (∀ i x, ds[i]? = some x → x.operation.isConst = false → Q x ⟨n + i⟩) →
      List.Forall₂ Q (ds.filter fun x => !x.operation.isConst) (bodyIds n ds) := by
  induction ds with
  | nil => exact fun _ => .nil
  | cons d ds ih =>
    intro n h
    have hrest := ih (n := n + 1) fun i x hx hconst => by
      have hnext := h (i + 1) x hx hconst
      rwa [Nat.add_comm i 1, ← Nat.add_assoc] at hnext
    rw [bodyIds]
    cases hconst : d.operation.isConst with
    | true => simpa [List.filter_cons, hconst] using hrest
    | false => simpa [List.filter_cons, hconst] using ⟨h 0 d rfl hconst, hrest⟩

theorem getElem?_bodyValues {ds : List InstructionDecl} {x : InstructionDecl} :
    ∀ {scope : Scope} {n i : Nat}, ds[i]? = some x → (bodyValues site b scope n ds)[i]? =
      some (x.operation.value site (bodyScope scope n (ds.take i)) b) := by
  induction ds with
  | nil => exact fun hx => nomatch hx
  | cons d ds ih =>
    intro scope n i hx
    cases i with
    | zero =>
      cases hx
      rfl
    | succ i => exact ih hx

/-- The blocks up to a line, without those behind it. -/
def upToLine : List BlockDecl → Nat → Nat → List BlockDecl
  | [], _, _ => []
  | d :: _, 0, i => [{ d with body := d.body.take i }]
  | d :: ds, j + 1, i => d :: upToLine ds j i

/-- The lines of the blocks before the block at place `j` come before its own. -/
theorem bodiesIds_of_getElem? {ds : List BlockDecl} {d : BlockDecl} : ∀ {n k j : Nat},
    ds[j]? = some d →
      bodiesIds n k ds ⟨k + j⟩ = bodyIds (n + lineCount (ds.take j)) d.body := by
  induction ds with
  | nil => exact fun hd => nomatch hd
  | cons d' ds ih =>
    intro n k j hd
    cases j with
    | zero =>
      cases hd
      rw [Nat.add_zero, bodiesIds, if_pos rfl, bodiesIds_of_lt (Nat.lt_succ_self k),
        List.append_nil]
      rfl
    | succ j =>
      have hne : (⟨k + (j + 1)⟩ : BlockId) ≠ ⟨k⟩ := by simp
      rw [bodiesIds, if_neg hne, List.nil_append, List.take_succ_cons, lineCount,
        ← Nat.add_assoc n, ← ih (k := k + 1) hd, Nat.add_right_comm k 1 j, Nat.add_assoc]

/-- The line at place `i` of the block at place `j` is resolved with the names after the lines up
to it. -/
theorem getElem?_bodiesValues {ds : List BlockDecl} {d : BlockDecl} {x : InstructionDecl} :
    ∀ {scope : Scope} {n k j i : Nat}, ds[j]? = some d → d.body[i]? = some x →
      (bodiesValues site scope n k ds)[lineCount (ds.take j) + i]? =
        some (x.operation.value site (bodiesScope scope n (upToLine ds j i)) ⟨k + j⟩) := by
  induction ds with
  | nil => exact fun hd => nomatch hd
  | cons d' ds ih =>
    intro scope n k j i hd hx
    rw [bodiesValues]
    cases j with
    | zero =>
      cases hd
      have hi := (List.getElem?_eq_some_iff.1 hx).1
      rw [List.take_zero, lineCount, Nat.zero_add,
        List.getElem?_append_left (by rwa [length_bodyValues])]
      exact getElem?_bodyValues hx
    | succ j =>
      rw [List.take_succ_cons, lineCount, Nat.add_assoc,
        List.getElem?_append_right (by rw [length_bodyValues]; exact Nat.le_add_right _ _),
        length_bodyValues, Nat.add_sub_cancel_left, show k + (j + 1) = k + 1 + j by omega]
      exact ih hd hx

/-- The values of the lines of the function `d`. -/
theorem Placed.value_line (h : Placed functions d p₀ q₀ p) {i : Nat} {x : Value}
    (hx : (d.lineValues functions p₀)[i]? = some x) :
    p.value ⟨p₀.values.size + paramCount d.layout + i⟩ = x := by
  have hlength : (d.lineValues functions p₀).length = lineCount d.layout := length_bodiesValues
  have hi : i < lineCount d.layout := hlength ▸ (List.getElem?_eq_some_iff.1 hx).1
  rw [h.grows.value _ (by rw [h.read.size_values]; simpa using hi), value_eq_getElem?,
    h.read.values, List.getElem?_append_right (by simp [length_headsValues])]
  simp [length_headsValues, hx]

theorem Placed.value_of_line (h : Placed functions d p₀ q₀ p) {i j : Nat} {x : InstructionDecl}
    (hblock : d.layout[j]? = some block) (hx : block.body[i]? = some x) :
    p.value ⟨p₀.values.size + paramCount d.layout + lineCount (d.layout.take j) + i⟩ =
      x.operation.value (d.site functions p₀) (bodiesScope (d.scope p₀)
        (p₀.values.size + paramCount d.layout) (upToLine d.layout j i)) ⟨p₀.blocks.size + j⟩ := by
  rw [Nat.add_assoc]
  exact h.value_line (getElem?_bodiesValues hblock hx)

/-- The instructions of the block at place `j` are made of its lines, without constants. -/
theorem Placed.forall₂_lines (h : Placed functions d p₀ q₀ p) {j : Nat}
    (hblock : d.layout[j]? = some block) :
    List.Forall₂ (fun x v => ∃ scope, p.value v =
        x.operation.value (d.site functions p₀) scope ⟨p₀.blocks.size + j⟩)
      (block.body.filter fun x => !x.operation.isConst)
      (p.block ⟨p₀.blocks.size + j⟩).instructions := by
  have hj : j < d.layout.length := (List.getElem?_eq_some_iff.1 hblock).1
  have hparts := eq_of_parts (h.grows.block ⟨p₀.blocks.size + j⟩
    (by rw [h.read.blocks]; exact Nat.add_lt_add_left hj _))
  rw [hparts.2.2.2, h.read.instructions_eq (h.read.mem_blocks hj), bodiesIds_of_getElem? hblock]
  exact forall₂_bodyIds fun i x hx _ => ⟨_, h.value_of_line hblock hx⟩

/-- Calls among the instructions of the block at place `j` go where its lines say. -/
theorem Placed.forall₂_callsAs (h : Placed functions d p₀ q₀ p) (hp : LoadedFrom functions p)
    (hd : d ∈ functions) {j : Nat} (hblock : d.layout[j]? = some block) :
    List.Forall₂ (fun x v => ∃ op, p.operation? v = some op ∧ p.CallsAs x.operation op)
      (block.body.filter fun x => !x.operation.isConst)
      (p.block ⟨p₀.blocks.size + j⟩).instructions := by
  have hcalled : ∀ x ∈ block.body.filter fun x => !x.operation.isConst,
      x.operation.CalledIn functions ∧ x.operation.isConst = false := by
    intro x hx
    obtain ⟨hx, hconst⟩ := List.mem_filter.1 hx
    exact ⟨hp.called d hd x (List.mem_flatMap.2 ⟨block, List.mem_of_getElem? hblock, hx⟩),
      by simpa using hconst⟩
  refine ((List.forall₂_and_left _ _).2 ⟨hcalled, h.forall₂_lines hblock⟩).imp ?_
  rintro x v ⟨⟨hcalled, hconst⟩, scope, hvalue⟩
  exact hp.callsAs_value rfl hcalled hconst hvalue

/-- The blocks of `d` have the labels that are written. -/
theorem Placed.labels_eq (h : Placed functions d p₀ q₀ p) (hblocks : d.blocks = some blocks) :
    p.labels ⟨p₀.functions.size⟩ = blocks.map BlockDecl.label := by
  have hlayout : d.layout.map BlockDecl.label = blocks.map BlockDecl.label := by
    obtain ⟨entry, others, rfl, -⟩ := h.resolves.entry blocks hblocks
    rw [FunctionDecl.layout, hblocks]
    rfl
  rw [← hlayout, ← h.read.labels_eq, labels, labels, h.function_eq]
  refine List.map_congr_left fun b hb => (eq_of_parts (h.grows.block b ?_)).1
  obtain ⟨k, x, rfl, hx, -⟩ := h.read.exists_head hb
  rw [h.read.blocks]
  have hk := (List.getElem?_eq_some_iff.1 hx).1
  rw [length_heads] at hk
  exact Nat.add_lt_add_left hk _

/-- A `block` that is written is laid out with its lines. -/
theorem FunctionDecl.getElem?_layout (hblocks : d.blocks = some blocks) {j : Nat}
    (hj : blocks[j]? = some block) :
    ∃ block', d.layout[j]? = some block' ∧ block'.body = block.body := by
  cases blocks with
  | nil => cases hj
  | cons entry others =>
    rw [FunctionDecl.layout, hblocks]
    cases j with
    | zero =>
      cases hj
      exact ⟨_, rfl, rfl⟩
    | succ j => exact ⟨block, hj, rfl⟩

/-- The function `d` of a text that was loaded is put together as its `blocks` are written. -/
theorem Placed.structured (h : Placed functions d p₀ q₀ p) (hp : LoadedFrom functions p)
    (hd : d ∈ functions) (hlocal : p.Local ⟨p₀.functions.size⟩) (hblocks : d.blocks = some blocks) :
    p.Structured ⟨p₀.functions.size⟩ blocks where
  preds c _ b := hp.toLoaded.mem_preds_iff_edge
  labels := h.labels_eq hblocks
  distinct := (h.region hp hd).labels
  operands b hb v hv op hop w hw := by
    refine ⟨hlocal.built.operand_lt (hlocal.built.instruction_of_mem hv hop) hw, ?_⟩
    cases hconst : p.constant? w with
    | some x => exact Or.inl rfl
    | none =>
      obtain ⟨c, hc, hmem⟩ := hlocal.refers hb hv op hop w hw hconst
      exact Or.inr (hmem.imp (fun hmem => ⟨c, hc, hmem⟩) fun hmem => ⟨c, hc, hmem⟩)
  calls := by
    have hlength := congrArg List.length (h.labels_eq hblocks)
    refine List.forall₂_iff_get.2 ⟨by simpa [labels] using hlength.symm, fun j hj hj' => ?_⟩
    have hget : blocks[j]? = some (blocks.get ⟨j, hj⟩) := List.getElem?_eq_getElem hj
    obtain ⟨block, hblock, hbody⟩ := FunctionDecl.getElem?_layout hblocks hget
    have hb : (p.function ⟨p₀.functions.size⟩).blocks.get ⟨j, hj'⟩ = ⟨p₀.blocks.size + j⟩ := by
      simp [h.function_eq, h.read.blocks_eq]
    rw [hb, ← hbody]
    exact h.forall₂_callsAs hp hd hblock

end Source

/-- **Programs from texts are sound.**  Take a text that is accepted.  The functions of its module
are those of the text, in order.  The search for the type of a value, which follows operands, ends
with the type of the value.  And each function with a body is put together as its blocks are
written: predecessors are the blocks whose terminators go to a block, labels are different and
those that are written, operands are constants or values of the function and were created before,
and calls go to the only function of the module with the path that is written and as many
arguments as are passed. -/
theorem structured_of_load {text : String} {p : Program} (hload : Source.load text = .ok p) :
    ∃ functions, Source.read text = .ok functions ∧
      List.Forall₂ (fun (d : FunctionDecl) g => (p.function g).path = d.path ∧
        (p.function g).arity = d.arity) functions (p.functionsOf ⟨0⟩) ∧
      (∀ v r, p.FindsType v r ↔ p.typeOf v = r) ∧
      ∀ f ∈ p.bodies, ∃ d blocks, functions[f.index]? = some d ∧ d.blocks = some blocks ∧
        p.Structured f blocks := by
  obtain ⟨functions, hread, -, -⟩ := Source.steps_of_load hload
  have hp := Source.loadedFrom_of_load hload hread
  refine ⟨functions, hread, ?_, fun v r => hp.built.ordered.findsType_iff, fun f hf => ?_⟩
  · rw [hp.functionsOf_eq, hp.resolved.size_functions]
    refine List.forall₂_iff_get.2 ⟨by simp, fun k hk hk' => ?_⟩
    obtain ⟨hpath, harity, -⟩ := hp.signature_eq (List.getElem?_eq_getElem hk)
    simpa using ⟨hpath, harity⟩
  · have hlocal := Source.local_of_load hload hf
    have hlt : f.index < functions.length := hp.resolved.size_functions ▸ hlocal.index_lt
    have hd : functions[f.index]? = some functions[f.index] := List.getElem?_eq_getElem hlt
    obtain ⟨p₀, q₀, hplaced, hsize⟩ := hp.resolved.exists_placed hd
    obtain rfl : (⟨p₀.functions.size⟩ : FunctionId) = f := congrArg FunctionId.mk hsize
    have hdecl : (p.function ⟨p₀.functions.size⟩).isDeclaration = false := by
      simpa using (List.mem_filter.1 hf).2
    rw [hplaced.function_eq, hplaced.read.function] at hdecl
    obtain ⟨blocks, hblocks⟩ := Option.isSome_iff_exists.1 (Option.isNone_eq_false_iff.1 hdecl)
    exact ⟨_, blocks, hd, hblocks, hplaced.structured hp (List.getElem_mem hlt) hlocal hblocks⟩

/-- A function calls one that comes later, and there is another with the same path. -/
def forwardText : String :=
  "module \x7b
    fn f(x: bool) -> bool \x7b
      entry(): c = const bool true y = call a::g(x, c) br loop(y)
      loop(z: bool): cbr z, loop(c), exit()
      exit(): ret bool y
    \x7d
    fn a::g(x: bool) -> u64
    fn a::g(x: bool, y: bool) -> bool
  \x7d"

/-- It is put together as it is written: the call goes to the last function, and the loop is a
predecessor of itself. -/
theorem forward_call_structured :
    ∃ p blocks, Source.load forwardText = .ok p ∧
      p.operation? ⟨3⟩ = some (.call ⟨2⟩ [⟨0⟩, ⟨2⟩]) ∧ (p.block ⟨1⟩).preds = [⟨0⟩, ⟨1⟩] ∧
      p.FindsType ⟨3⟩ (some .bool) ∧ p.Structured ⟨0⟩ blocks := by
  obtain ⟨p, hload, hp⟩ : ∃ p, Source.load forwardText = .ok p ∧
      (p.operation? ⟨3⟩, (p.block ⟨1⟩).preds, p.typeOf ⟨3⟩, p.bodies) =
        (some (.call ⟨2⟩ [⟨0⟩, ⟨2⟩]), [⟨0⟩, ⟨1⟩], some .bool, [⟨0⟩]) :=
    Source.exists_load_of_map (by decide +kernel)
  simp only [Prod.mk.injEq] at hp
  obtain ⟨hcall, hpreds, htype, hbodies⟩ := hp
  obtain ⟨functions, -, -, htypes, hbody⟩ := structured_of_load hload
  obtain ⟨d, blocks, -, -, hstructured⟩ := hbody ⟨0⟩ (by simp [hbodies])
  exact ⟨p, blocks, hload, hcall, hpreds, (htypes _ _).2 htype, hstructured⟩

end FlowFacts
