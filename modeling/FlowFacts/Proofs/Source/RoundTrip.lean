import FlowFacts.Proofs.Source.Recreated

/-!
# Loading a listing

When the listing of a program can be loaded and gives the same program again, up to the numbers
of its values.  That is not always so.  The result of an instruction without a type has no name in
the listing, so an instruction that uses it cannot be read back; and the numbers `v0`, `v1`, … can
be the name of an argument, which stands for another value then.  Both are excluded by
`Program.Recoverable`, and nothing else is.

The listing is read back function by function.  Whatever the names stand for, a function gets the
blocks, parameters and instructions it had, with the numbers in the order of the listing
(`Reread`).  So the programs are the same exactly if the names of operands stand for the values
they were written for.

## Main definitions

* `Program.Recoverable` — the names of the operands in a listing stand for them.
* `Program.Reread` — the program of the first functions of a listing.

## Main results

* `read_listing` — a listing is read as the trees of the program.
* `reread_of_resolved` — what the trees mean.
* `load_listing_iff` — which programs come back.
-/

namespace FlowFacts

open Source

namespace Program

variable {p q r : Program} {σ τ : ValueId → ValueId} {f : FunctionId} {b : BlockId}
  {u v : ValueId} {before after vs ws : List ValueId}

/-! ### The trees of a program -/

theorem Loaded.decls_eq (h : p.Loaded) :
    p.decls = (List.range p.functions.size).map fun i => p.functionDecl ⟨i⟩ := by
  rw [decls, h.modules]
  simp [Function.comp_def]

/-- The listing of `p` is read as its trees. -/
theorem Loaded.read_listing (h : p.Loaded) : Source.read p.listing = .ok p.decls := by
  rw [listing_eq_textOf h.built h.modules]
  refine read_textOf fun d hd => ?_
  rw [h.decls_eq] at hd
  obtain ⟨i, hi, rfl⟩ := List.mem_map.1 hd
  have hlt : (⟨i⟩ : FunctionId).index < p.functions.size := List.mem_range.1 hi
  exact legible_functionDeclWith (fun g hg => h.named hg) hlt (naming_function h.built hlt)
    fun _ => h.allSettled hlt

theorem arity_functionDecl (f : FunctionId) :
    (p.functionDecl f).arity = (p.function f).arity := by
  simp [FunctionDecl.arity, functionDecl, functionDeclWith, Function.arity]

/-- The function `f` is found among the trees by its signature. -/
theorem Loaded.findIdx?_decls (h : p.Loaded) (hf : f.index < p.functions.size) :
    p.decls.findIdx? (fun d => d.path == (p.function f).path && d.arity == (p.function f).arity) =
      some f.index := by
  have hget : ∀ i (hi : i < p.decls.length), p.decls[i] = p.functionDecl ⟨i⟩ := by
    intro i hi
    simp only [h.decls_eq, List.getElem_map, List.getElem_range]
  have hlength : p.decls.length = p.functions.size := by simp [h.decls_eq]
  rw [List.findIdx?_eq_some_iff_getElem]
  refine ⟨hlength ▸ hf, ?_, fun j hj => ?_⟩
  · rw [hget, arity_functionDecl]
    simp [functionDecl, functionDeclWith]
  · -- a function before it with its signature would be the function itself
    rw [hget, arity_functionDecl]
    intro hsame
    rw [Bool.and_eq_true, beq_iff_eq, beq_iff_eq] at hsame
    have heq := h.eq_of_signature (f := ⟨j⟩) (g := f) (Nat.lt_trans hj hf) hf
      (Prod.ext hsame.1 hsame.2)
    rw [← heq] at hj
    exact Nat.lt_irrefl _ hj

/-- Labels and callees in the listing of `f` stand for what they were written for. -/
theorem Loaded.sited (h : p.Loaded) (hf : f.index < p.functions.size)
    {first last start stop : Nat} (hregion : p.Region p.functions.size f first last start stop)
    (hblocks : r.blocks.size = start) : p.Sited f ((p.functionDecl f).site p.decls r) where
  block b hb := by
    have hfrom := hregion.blocks ▸ blocksFrom_range' (stop - start) start
    rw [FunctionDecl.site, hblocks, layout_functionDecl h.built hf hregion,
      labelled_layoutDecls hfrom]
    have hlookup : ((p.function f).blocks.map fun b => ((p.block b).label, b)).lookup
        (p.block b).label = some b :=
      lookup_map_of_unique hb fun c hc heq => List.inj_on_of_nodup_map hregion.labels hc hb heq
    exact hlookup
  callee g hg := by
    rw [Site.callee?, FunctionDecl.site, h.findIdx?_decls hg]
    rfl

/-! ### Reading function by function -/

/-- The values of `f` when it is read back, whatever the names stand for. -/
def rereadValues (p : Program) (σ : ValueId → ValueId) (f : FunctionId) : List Value :=
  (p.paramsOf (p.function f).blocks).map p.value ++
    p.retold (p.naming f) σ (p.paramsOf (p.function f).blocks) (p.linesOf f)

theorem length_retold : ∀ {vs : List ValueId},
    (p.retold (p.naming f) σ vs ws).length = ws.length := by
  induction ws with
  | nil =>
    intro vs
    rfl
  | cons w ws ih =>
    intro vs
    rw [retold, List.length_cons, ih, List.length_cons]

theorem length_rereadValues :
    (p.rereadValues σ f).length = (p.recreated f).length := by
  rw [rereadValues, recreated, List.length_append, List.length_append, List.length_map,
    length_retold]

/-- The program of the first `k` functions of a listing: these have the parts they had, with the
numbers of the listing, and the first block behind them has the number `start`. -/
structure Reread (p : Program) (σ : ValueId → ValueId) (start k : Nat) (r : Program) : Prop where
  /-- The functions. -/
  size : r.functions.size = k
  /-- What they are. -/
  function : ∀ g, g.index < k → r.function g = (p.function g).renumber σ
  /-- The blocks. -/
  blocks : r.blocks.size = start
  /-- What they are. -/
  block : ∀ b, b.index < start → (r.block b).parts = (p.block b).parts.renumber σ
  /-- The values. -/
  values : r.values.toList = (List.range k).flatMap fun i => p.rereadValues σ ⟨i⟩
  /-- All names stood for something. -/
  knows : ∀ g, g.index < k →
    p.Knows (p.naming g) σ (p.paramsOf (p.function g).blocks) (p.linesOf g)

theorem length_flatMap_rereadValues (k : Nat) :
    ((List.range k).flatMap fun i => p.rereadValues σ ⟨i⟩).length = (p.recreatedUpTo k).length := by
  rw [recreatedUpTo, List.length_flatMap, List.length_flatMap]
  simp only [length_rereadValues]

theorem Reread.size_values {start k : Nat} (h : p.Reread σ start k r) :
    r.values.size = (p.recreatedUpTo k).length := by
  rw [← Array.length_toList, h.values, length_flatMap_rereadValues]

/-- The numbers of the values of all functions are those of each of them, the `k`th one too. -/
theorem counts_recreated {n : Nat} : ∀ {k : Nat}, Counts σ 0 (p.recreatedUpTo n) → k < n →
    Counts σ (p.recreatedUpTo k).length (p.recreated ⟨k⟩) := by
  induction n with
  | zero =>
    intro k _ hk
    omega
  | succ n ih =>
    intro k h hk
    rw [recreatedUpTo_succ, counts_append, Nat.zero_add] at h
    rcases Nat.lt_succ_iff_lt_or_eq.1 hk with hk | rfl
    · exact ih h.1 hk
    · exact h.2

section

variable {functions : List FunctionDecl} {m : ModuleId} {k start stop first last : Nat}
  (h : p.Loaded) (hk : k < p.functions.size) (hσ : Counts σ 0 (p.recreatedUpTo p.functions.size))
  (hregion : p.Region p.functions.size ⟨k⟩ first last start stop) (hr : p.Reread σ start k r)

include h hk hσ hregion hr

/-- The names after the parameters of the next function, `k`. -/
theorem Reread.scope_eq : (p.functionDecl ⟨k⟩).scope r =
    p.told (p.naming ⟨k⟩) σ (p.paramsOf (p.function ⟨k⟩).blocks) := by
  have hcounts := (counts_append.1 (counts_recreated hσ hk)).1
  have hscope : headsScope (p.told (p.naming ⟨k⟩) σ []) (p.recreatedUpTo k).length
      (p.layoutDecls (p.naming ⟨k⟩) [] (p.function ⟨k⟩).blocks) = _ :=
    headsScope_layoutDecls h.built hcounts
  rw [FunctionDecl.scope, layout_functionDecl h.built hk hregion, hr.size_values]
  exact hscope

omit hσ in
theorem Reread.paramCount_eq : r.values.size + paramCount (p.functionDecl ⟨k⟩).layout =
    (p.recreatedUpTo k).length + (p.paramsOf (p.function ⟨k⟩).blocks).length := by
  rw [layout_functionDecl h.built hk hregion, paramCount_layoutDecls, hr.size_values]

/-- The lines of the next function, `k`, can be resolved if all names are known. -/
theorem Reread.bodiesResolve_iff :
    BodiesResolve ((p.functionDecl ⟨k⟩).site p.decls r) ((p.functionDecl ⟨k⟩).scope r)
        (r.values.size + paramCount (p.functionDecl ⟨k⟩).layout) (p.functionDecl ⟨k⟩).layout ↔
      p.Knows (p.naming ⟨k⟩) σ (p.paramsOf (p.function ⟨k⟩).blocks) (p.linesOf ⟨k⟩) := by
  have hcounts := (counts_append.1 (counts_recreated hσ hk)).2
  rw [hr.scope_eq h hk hσ hregion, hr.paramCount_eq h hk hregion,
    layout_functionDecl h.built hk hregion]
  exact bodiesResolve_layoutDecls (h.sited hk hregion hr.blocks) (h.allSettled hk) hcounts

/-- The values of the lines of the next function, `k`. -/
theorem Reread.lineValues_eq : (p.functionDecl ⟨k⟩).lineValues p.decls r =
    p.retold (p.naming ⟨k⟩) σ (p.paramsOf (p.function ⟨k⟩).blocks) (p.linesOf ⟨k⟩) := by
  have hcounts := (counts_append.1 (counts_recreated hσ hk)).2
  have hfrom := hregion.blocks ▸ blocksFrom_range' (stop - start) start
  rw [FunctionDecl.lineValues, hr.scope_eq h hk hσ hregion, hr.paramCount_eq h hk hregion,
    hr.blocks, layout_functionDecl h.built hk hregion]
  exact bodiesValues_layoutDecls (h.sited hk hregion hr.blocks) (h.allSettled hk) hfrom hcounts

/-- The next function, `k`, has the parts it had. -/
theorem Reread.function_eq (hread : FunctionRead p.decls m (p.functionDecl ⟨k⟩) r q) :
    q.function ⟨k⟩ = (p.function ⟨k⟩).renumber σ := by
  have hfrom := hregion.blocks ▸ blocksFrom_range' (stop - start) start
  have hcounts := (counts_append.1 (counts_recreated hσ hk)).1
  rw [Function.blocks, paramsOf_cons, counts_append] at hcounts
  have hargs : numbered r.values.size (p.functionDecl ⟨k⟩).args =
      (p.function ⟨k⟩).args.map fun x => (x.1, σ x.2) := by
    rw [args_functionDecl h.built hk hregion, hr.size_values, numbered_parameterDecl hcounts.1]
    exact h.map_spelling_entry hk
  have hothers : (labelled r.blocks.size (p.functionDecl ⟨k⟩).layout).tail.map Prod.snd =
      (p.function ⟨k⟩).others := by
    rw [layout_functionDecl h.built hk hregion, hr.blocks, labelled_layoutDecls hfrom,
      Function.blocks, List.map_cons, List.tail_cons, List.map_map]
    exact List.map_id _
  have hdecl : (p.functionDecl ⟨k⟩).blocks.isNone = (p.function ⟨k⟩).isDeclaration := by
    rw [functionDecl, functionDeclWith]
    cases (p.function ⟨k⟩).isDeclaration <;> rfl
  have hfunction := hread.function
  rw [hr.size, hargs, hothers, hdecl, hr.blocks, ← hfrom.1] at hfunction
  rw [hfunction, Function.renumber, ← hregion.nextLabel]
  rfl

/-- A block `b` of the next function, `k`, has the parts it had. -/
theorem Reread.block_eq (hread : FunctionRead p.decls m (p.functionDecl ⟨k⟩) r q)
    (hb : b ∈ (p.function ⟨k⟩).blocks) : (q.block b).parts = (p.block b).parts.renumber σ := by
  have hfrom := hregion.blocks ▸ blocksFrom_range' (stop - start) start
  obtain ⟨hparams, hlines⟩ := counts_append.1 (counts_recreated hσ hk)
  obtain ⟨j, hj⟩ := List.getElem?_of_mem hb
  obtain rfl : b = ⟨start + j⟩ := hfrom.getElem? hj
  have hhead : (heads ⟨r.functions.size⟩ r.values.size (p.functionDecl ⟨k⟩).layout)[j]? =
      some { label := (p.block ⟨start + j⟩).label, function := ⟨k⟩,
             params := (p.block ⟨start + j⟩).params.map σ } := by
    rw [layout_functionDecl h.built hk hregion, hr.size_values, heads_layoutDecls hparams,
      List.getElem?_map, hj, hr.size]
    rfl
  have hparts := hread.block j _ hhead
  rw [hr.paramCount_eq h hk hregion, hr.blocks, layout_functionDecl h.built hk hregion,
    bodiesIds_layoutDecls h.built hb hfrom hlines] at hparts
  rw [hparts, Block.renumber, Block.parts, hregion.owner _ hb]

/-- One more function, `k`, is read back. -/
theorem Reread.succ (hread : FunctionRead p.decls m (p.functionDecl ⟨k⟩) r q)
    (hresolves : FunctionResolves p.decls m r (p.functionDecl ⟨k⟩)) :
    p.Reread σ stop (k + 1) q := by
  have hfrom := hregion.blocks ▸ blocksFrom_range' (stop - start) start
  have hlength : (p.function ⟨k⟩).blocks.length = stop - start := by simp [hregion.blocks]
  have hpos : 0 < (p.function ⟨k⟩).blocks.length := Nat.succ_pos _
  have hlast : ∀ g : FunctionId, g.index < k + 1 → g.index < k ∨ g = ⟨k⟩ := by
    intro g hg
    rcases Nat.lt_succ_iff_lt_or_eq.1 hg with hlt | rfl
    · exact Or.inl hlt
    · exact Or.inr rfl
  refine
    { size := by rw [hread.size, hr.size]
      function := fun g hg => ?_
      blocks := ?_
      block := fun b hb => ?_
      values := ?_
      knows := fun g hg => ?_ }
  · rcases hlast g hg with hlt | rfl
    · rw [hread.other g (hr.size ▸ hlt), hr.function g hlt]
    · exact hr.function_eq h hk hσ hregion hread
  · rw [hread.blocks, hr.blocks, layout_functionDecl h.built hk hregion, length_layoutDecls,
      hlength]
    omega
  · by_cases hlt : b.index < start
    · rw [hread.old b (hr.blocks ▸ hlt), hr.block b hlt]
    · -- the blocks from `start` on are those of the function
      refine hr.block_eq h hk hσ hregion hread ?_
      rw [hregion.blocks]
      exact List.mem_map.2 ⟨b.index, List.mem_range'_1.2 (by omega), rfl⟩
  · rw [hread.values, hr.values, hr.lineValues_eq h hk hσ hregion,
      layout_functionDecl h.built hk hregion, hr.blocks, headsValues_layoutDecls h.built hfrom,
      List.range_succ, List.flatMap_append, List.append_assoc]
    simp [rereadValues]
  · rcases hlast g hg with hlt | rfl
    · exact hr.knows g hlt
    · exact (hr.bodiesResolve_iff h hk hσ hregion).1 hresolves.lines

end

/-- The tree `d` behind the trees `ds` is that of the next function. -/
theorem Loaded.decl_eq (h : p.Loaded) {ds back : List FunctionDecl} {d : FunctionDecl}
    (hds : p.decls = ds ++ d :: back) :
    ds.length < p.functions.size ∧ d = p.functionDecl ⟨ds.length⟩ := by
  rw [h.decls_eq] at hds
  have hlength := congrArg List.length hds
  rw [List.length_map, List.length_range, List.length_append, List.length_cons] at hlength
  have hlt : ds.length < p.functions.size := by omega
  have hget := congrArg (fun l => l[ds.length]?) hds
  simp only [List.getElem?_map, List.getElem?_range hlt, List.getElem?_append_right (Nat.le_refl _),
    Nat.sub_self, List.getElem?_cons_zero, Option.map_some] at hget
  exact ⟨hlt, (Option.some.inj hget).symm⟩

/-- The functions of the first trees `ds` of a listing, read back. -/
theorem Loaded.reread_of_resolved (h : p.Loaded)
    (hσ : Counts σ 0 (p.recreatedUpTo p.functions.size)) {start : Nat → Nat} {first : Nat → Nat}
    (hzero : start 0 = 0) (hregion : ∀ k < p.functions.size,
      p.Region p.functions.size ⟨k⟩ (first k) (first (k + 1)) (start k) (start (k + 1)))
    {ds : List FunctionDecl} (hr : Resolved p.decls ds r) :
    ds <+: p.decls → p.Reread σ (start ds.length) ds.length r := by
  -- on the trees that have been resolved; the next one is that of the next function
  induction hr with
  | nil =>
    intro _
    exact ⟨rfl, by simp, hzero.symm, by simp [hzero], rfl, by simp⟩
  | @snoc ds d r q _ hresolves hread ih =>
    rintro ⟨back, hback⟩
    rw [List.append_assoc] at hback
    obtain ⟨hlt, rfl⟩ := h.decl_eq hback.symm
    rw [List.length_append, List.length_singleton]
    exact (ih ⟨_, hback⟩).succ h hlt hσ (hregion _ hlt) hread hresolves

/-! ### Names that stand for their values -/

/-- The names of the operands in the listing of `p` stand for them where they are used. -/
def Recoverable (p : Program) : Prop :=
  ∀ f : Fin p.functions.size, ∀ i : Fin (p.linesOf ⟨f⟩).length,
    ∀ u ∈ p.operandsOf ((p.linesOf ⟨f⟩).get i),
      p.Told ⟨f⟩ (p.paramsOf (p.function ⟨f⟩).blocks ++ (p.linesOf ⟨f⟩).take i) u

instance : Decidable p.Recoverable := inferInstanceAs (Decidable (∀ _ : Fin p.functions.size, _))

theorem recoverable_iff : p.Recoverable ↔ ∀ f : FunctionId, f.index < p.functions.size →
    ∀ before v after, p.linesOf f = before ++ v :: after → ∀ u ∈ p.operandsOf v,
      p.Told f (p.paramsOf (p.function f).blocks ++ before) u := by
  constructor
  · intro h f hf before v after hlines u hu
    have hlt : before.length < (p.linesOf f).length := by simp [hlines]
    have hget : (p.linesOf f).get ⟨before.length, hlt⟩ = v := by simp [hlines]
    have htake : (p.linesOf f).take before.length = before := by simp [hlines]
    have htold := h ⟨f.index, hf⟩ ⟨before.length, hlt⟩ u (hget.symm ▸ hu)
    rwa [htake] at htold
  · intro h f i u hu
    refine h ⟨f⟩ f.isLt _ _ ((p.linesOf ⟨f⟩).drop (i + 1)) ?_ u hu
    rw [List.get_eq_getElem, ← List.drop_eq_getElem_cons i.isLt, List.take_append_drop]

theorem knows_iff {N : Naming} : ∀ {vs : List ValueId}, p.Knows N σ vs ws ↔
    ∀ before w after, ws = before ++ w :: after → ∀ u ∈ p.operandsOf w,
      Known (p.told N σ (vs ++ before)) (p.spelling N u) := by
  induction ws with
  | nil => simp [Knows]
  | cons w ws ih =>
    intro vs
    rw [Knows, ih]
    constructor
    · rintro ⟨hfirst, hrest⟩ before w' after heq
      cases before with
      | nil =>
        cases heq
        simpa using hfirst
      | cons x before =>
        cases heq
        simpa using hrest before w' after rfl
    · intro h
      refine ⟨by simpa using h [] w ws rfl, fun before w' after heq => ?_⟩
      simpa using h (w :: before) w' after (by rw [heq]; rfl)

/-- Only the numbers of the operands of `v` matter. -/
theorem renumber_value_iff :
    (p.value v).renumber σ = (p.value v).renumber τ ↔ ∀ u ∈ p.operandsOf v, σ u = τ u := by
  unfold operandsOf operation?
  cases p.value v with
  | parameter | constant => simp [Value.renumber]
  | instruction b op => simp [Value.renumber, Operation.renumber_eq_iff]

/-- The lines of `ws` mean what they were written for if names stand for their values. -/
theorem retold_eq {N : Naming} : ∀ {vs : List ValueId},
    (∀ before w after, ws = before ++ w :: after → ∀ u ∈ p.operandsOf w,
      (p.told N σ (vs ++ before)).lookup (p.spelling N u) = some (σ u)) →
    p.retold N σ vs ws = ws.map fun w => (p.value w).renumber σ := by
  induction ws with
  | nil => exact fun _ => rfl
  | cons w ws ih =>
    intro vs h
    rw [retold, List.map_cons]
    congr 1
    · refine renumber_value_iff.2 fun u hu => ?_
      have hlookup := h [] w ws rfl u hu
      rw [List.append_nil] at hlookup
      rw [find, hlookup]
      rfl
    · refine ih fun before w' after heq u hu => ?_
      simpa using h (w :: before) w' after (by rw [heq]; rfl) u hu

theorem map_label_layoutDecls {N : Naming} {bs : List BlockId} : ∀ {seen : List ValueId},
    (p.layoutDecls N seen bs).map BlockDecl.label = bs.map fun b => (p.block b).label := by
  induction bs with
  | nil => exact rfl
  | cons b bs ih =>
    intro seen
    rw [layoutDecls, List.map_cons, ih]
    rfl

section

variable (h : p.Loaded) (hσ : Counts σ 0 (p.recreatedUpTo p.functions.size))
  (hrecoverable : p.Recoverable)

include h hσ hrecoverable

/-- The name of an operand `u` stands for the number that the listing gives it. -/
theorem Recoverable.lookup_eq (hf : f.index < p.functions.size)
    (hlines : p.linesOf f = before ++ v :: after) (hu : u ∈ p.operandsOf v) :
    (p.told (p.naming f) σ (p.paramsOf (p.function f).blocks ++ before)).lookup
      (p.spelling (p.naming f) u) = some (σ u) :=
  (h.lookup_told_iff hf (counts_recreated hσ hf) hlines hu).2
    (recoverable_iff.1 hrecoverable f hf before v after hlines u hu)

theorem Recoverable.knows (hf : f.index < p.functions.size) :
    p.Knows (p.naming f) σ (p.paramsOf (p.function f).blocks) (p.linesOf f) :=
  knows_iff.2 fun before v after hlines u hu => by
    rw [Known, hrecoverable.lookup_eq h hσ hf hlines hu]
    rfl

/-- The values of `f` come back with the numbers of the listing. -/
theorem Recoverable.rereadValues_eq (hf : f.index < p.functions.size) :
    p.rereadValues σ f = (p.recreated f).map fun v => (p.value v).renumber σ := by
  rw [rereadValues, recreated, List.map_append,
    retold_eq fun before v after hlines u hu => hrecoverable.lookup_eq h hσ hf hlines hu]
  congr 1
  refine List.map_congr_left fun v hv => ?_
  obtain ⟨b, hb, hv⟩ := List.mem_flatMap.1 hv
  obtain ⟨i, ty, hvalue⟩ := h.built.parameter_of_mem hv
  rw [hvalue]
  rfl

/-- The function `k` of a listing can be resolved behind those before it. -/
theorem Recoverable.resolves {k first last start stop : Nat} (hk : k < p.functions.size)
    (hregion : p.Region p.functions.size ⟨k⟩ first last start stop) (hr : p.Reread σ start k r)
    (hmodules : r.modules = #[(List.range k).map FunctionId.mk]) :
    FunctionResolves p.decls ⟨0⟩ r (p.functionDecl ⟨k⟩) where
  fresh := by
    -- the functions before it have their signatures, and no two functions share one
    rw [← Bool.not_eq_true, Program.lookup?, functionsOf, hmodules, List.find?_isSome]
    rintro ⟨g, hg, hsame⟩
    obtain ⟨i, hi, rfl⟩ := List.mem_map.1 hg
    rw [List.mem_range] at hi
    rw [hr.function ⟨i⟩ hi, arity_functionDecl, Bool.and_eq_true, beq_iff_eq, beq_iff_eq] at hsame
    have hsignature : p.signature ⟨i⟩ = p.signature ⟨k⟩ := by
      have harity : (p.function ⟨i⟩).arity = (p.function ⟨k⟩).arity := by
        simpa [Function.renumber, Function.arity] using hsame.2
      exact Prod.ext hsame.1 harity
    have heq := h.eq_of_signature (Nat.lt_trans hi hk) hk hsignature
    cases heq
    exact Nat.lt_irrefl _ hi
  entry bs hbs := by
    have howner := hregion.owner _ (List.mem_cons_self (l := (p.function ⟨k⟩).others))
    rw [functionDecl, functionDeclWith] at hbs
    by_cases hdecl : (p.function ⟨k⟩).isDeclaration = true
    · rw [if_pos hdecl] at hbs
      cases hbs
    · rw [if_neg hdecl] at hbs
      cases hbs
      exact ⟨_, _, rfl, if_pos (by rw [howner]; exact beq_self_eq_true _)⟩
  labels := by
    rw [layout_functionDecl h.built hk hregion, map_label_layoutDecls]
    exact hregion.labels
  lines := (hr.bodiesResolve_iff h hk hσ hregion).2 (hrecoverable.knows h hσ hk)

/-- The trees of the listing of `p` can be resolved. -/
theorem Recoverable.exists_resolve : ∃ q, resolve p.decls = .ok q := by
  obtain ⟨first, start, -, hzero, -, -, hregion⟩ := h.regions
  refine Source.exists_resolve fun front d back r hsplit hr => ?_
  obtain ⟨hlt, rfl⟩ := h.decl_eq hsplit
  have hreread := h.reread_of_resolved hσ hzero (fun k hk => hregion ⟨k⟩ hk) hr ⟨_, hsplit.symm⟩
  have hregion := hregion ⟨front.length⟩ hlt
  have hmodules := modules_of_resolved hr
  rw [hreread.size] at hmodules
  refine ⟨hrecoverable.resolves h hσ hlt hregion hreread hmodules, ?_⟩
  rw [layout_functionDecl h.built hlt hregion]
  exact called_layoutDecls (h.sited hlt hregion hreread.blocks) (h.allSettled hlt)

/-- The values of the program `q` that is read back. -/
theorem Recoverable.values_eq (hq : p.Reread σ p.blocks.size p.functions.size q) :
    q.values.toList =
      (p.recreatedUpTo p.functions.size).map fun v => (p.value v).renumber σ := by
  rw [hq.values, recreatedUpTo, List.map_flatMap]
  exact List.flatMap_congr fun i hi => hrecoverable.rereadValues_eq h hσ (List.mem_range.1 hi)

theorem Recoverable.value_eq (hq : p.Reread σ p.blocks.size p.functions.size q)
    (hv : p.Needed v) : q.value (σ v) = (p.value v).renumber σ := by
  obtain ⟨i, hi⟩ := List.getElem?_of_mem (h.mem_recreatedUpTo_iff.2 hv)
  have hnumber := hσ.getElem? hi
  rw [Nat.zero_add] at hnumber
  rw [value_eq_getElem?, hrecoverable.values_eq h hσ hq, hnumber, List.getElem?_map, hi]
  rfl

omit hrecoverable in
/-- The numbers of the listing are those of the values of the program `q` that is read back. -/
theorem Loaded.bijOn_of_reread (hq : p.Reread σ p.blocks.size p.functions.size q) :
    Set.BijOn σ {v | p.Needed v} {v | v.index < q.values.size} := by
  have hmem : ∀ v, p.Needed v ↔ v ∈ p.recreatedUpTo p.functions.size := fun v =>
    h.mem_recreatedUpTo_iff.symm
  simp only [hmem, hq.size_values]
  refine ⟨fun v hv => ?_, fun v hv w hw heq => hσ.inj hv hw heq, fun w hw => ?_⟩
  · obtain ⟨i, hi⟩ := List.getElem?_of_mem hv
    have hnumber := hσ.getElem? hi
    rw [Nat.zero_add] at hnumber
    exact hnumber ▸ (List.getElem?_eq_some_iff.1 hi).1
  · have hi := List.getElem?_eq_getElem (show w.index < _ from hw)
    refine ⟨_, List.mem_of_getElem? hi, ?_⟩
    rw [hσ.getElem? hi, Nat.zero_add]

/-- The program `q` that is read back is the same as `p` up to the numbers of its values. -/
theorem Recoverable.renumbers (hresolve : resolve p.decls = .ok q)
    (hq : p.Reread σ p.blocks.size p.functions.size q) : p.Renumbers q σ := by
  have hresolved := resolved_of_resolve hresolve
  have hbuilt := built_of_resolve hresolve
  have hbijection := h.bijOn_of_reread hσ hq
  have hvalue : ∀ v, p.Needed v → q.value (σ v) = (p.value v).renumber σ := fun v hv =>
    hrecoverable.value_eq h hσ hq hv
  refine
    { modules := by rw [modules_of_resolved hresolved, hq.size, h.modules]
      functions := hq.size
      function := fun f => ?_
      blocks := hq.blocks
      block := fun b => ?_
      preds := fun b c => ⟨fun hb => ?_, fun hb => ?_⟩
      bijection := hbijection
      value := hvalue }
  · by_cases hf : f.index < p.functions.size
    · exact hq.function f hf
    · rw [Program.function, Program.function, Array.getElem?_eq_none (by rw [hq.size]; omega),
        Array.getElem?_eq_none (by omega)]
      rfl
  · by_cases hb : b.index < p.blocks.size
    · exact hq.block b hb
    · rw [Program.block, Program.block, Array.getElem?_eq_none (by rw [hq.blocks]; omega),
        Array.getElem?_eq_none (by omega)]
      rfl
  · -- the branch of the program that is read back comes from one of the program
    obtain ⟨op, hop, target, htarget, rfl⟩ := branch_of_preds hresolved hb
    obtain ⟨w, hlt, hw⟩ := exists_value_of_mem hop
    obtain ⟨v, hv, rfl⟩ := hbijection.surjOn hlt
    rw [hvalue v hv] at hw
    cases hpv : p.value v with
    | parameter | constant =>
      rw [hpv] at hw
      cases hw
    | instruction b' op' =>
      rw [hpv] at hw
      cases hw
      rw [Operation.targets_renumber] at htarget
      obtain ⟨target, hmem, rfl⟩ := List.mem_map.1 htarget
      exact (h.built.pred hpv hmem :)
  · -- a branch of the program stands in the listing, and so in what is read back
    obtain ⟨op, hop, target, htarget, rfl⟩ := h.preds b c hb
    obtain ⟨v, hlt, hv⟩ := exists_value_of_mem hop
    have hneeded := needed_of_operation? hlt (operation?_eq_some_iff.2 ⟨b, hv⟩)
    have hw := hvalue v hneeded
    rw [hv] at hw
    have hmem : target.renumber σ ∈ (op.renumber σ).targets := by
      rw [Operation.targets_renumber]
      exact List.mem_map_of_mem htarget
    exact (hbuilt.pred hw hmem :)

end

/-! ### Programs that come back -/

/-- The whole listing of `p`, read back as `q`. -/
theorem Loaded.reread_of_resolve (h : p.Loaded)
    (hσ : Counts σ 0 (p.recreatedUpTo p.functions.size)) (hresolve : resolve p.decls = .ok q) :
    p.Reread σ p.blocks.size p.functions.size q := by
  obtain ⟨first, start, -, hzero, -, hlast, hregion⟩ := h.regions
  have hreread := h.reread_of_resolved hσ hzero (fun k hk => hregion ⟨k⟩ hk)
    (resolved_of_resolve hresolve) List.prefix_rfl
  rwa [h.decls_eq, List.length_map, List.length_range, hlast] at hreread

theorem getElem?_flatMap_range {α : Type} {g : Nat → List α} {x : α} {i k : Nat}
    (hx : (g k)[i]? = some x) : ∀ {n : Nat}, k < n →
      ((List.range n).flatMap g)[((List.range k).flatMap g).length + i]? = some x := by
  intro n
  induction n with
  | zero => exact fun hk => absurd hk (Nat.not_lt_zero k)
  | succ n ih =>
    intro hk
    rw [List.range_succ, List.flatMap_append, List.flatMap_singleton]
    rcases Nat.lt_succ_iff_lt_or_eq.1 hk with hk | rfl
    · have hbefore := ih hk
      rwa [List.getElem?_append_left (List.getElem?_eq_some_iff.1 hbefore).1]
    · rwa [List.getElem?_append_right (Nat.le_add_right _ _), Nat.add_sub_cancel_left]

section

variable (h : p.Loaded) (hσ : Counts σ 0 (p.recreatedUpTo p.functions.size))
  (hq : p.Reread σ p.blocks.size p.functions.size q) (hf : f.index < p.functions.size)
  (hlines : p.linesOf f = before ++ v :: after)

include h hσ hq hf hlines

omit h in
/-- The value of the line of `v` is its operation, on what the names of the operands stand for. -/
theorem Reread.value_eq : q.value (σ v) = (p.value v).renumber fun u =>
    find (p.told (p.naming f) σ (p.paramsOf (p.function f).blocks ++ before))
      (p.spelling (p.naming f) u) := by
  let place := (p.paramsOf (p.function f).blocks).length + before.length
  -- the place of the line among the values of its function, and so among all
  have hnumber : σ v = ⟨(p.recreatedUpTo f.index).length + place⟩ := by
    refine (counts_recreated hσ hf).getElem? ?_
    rw [recreated, hlines, List.getElem?_append_right (Nat.le_add_right _ _),
      Nat.add_sub_cancel_left]
    simp
  have hvalue : (p.rereadValues σ ⟨f.index⟩)[place]? = some ((p.value v).renumber fun u =>
      find (p.told (p.naming f) σ (p.paramsOf (p.function f).blocks ++ before))
        (p.spelling (p.naming f) u)) := by
    rw [rereadValues, List.getElem?_append_right (by simp [place]), List.length_map,
      Nat.add_sub_cancel_left, hlines, retold_append,
      List.getElem?_append_right (by rw [length_retold]), length_retold, Nat.sub_self]
    rfl
  have hget := getElem?_flatMap_range (g := fun i => p.rereadValues σ ⟨i⟩) hvalue hf
  rw [length_flatMap_rereadValues, ← hq.values] at hget
  rw [value_eq_getElem?, hnumber, hget]
  rfl

/-- If `q` is `p` up to other numbers, these are those of the listing where they matter, so names
stand for their values. -/
theorem Renumbers.told (hτ : p.Renumbers q τ) (hu : u ∈ p.operandsOf v) :
    p.Told f (p.paramsOf (p.function f).blocks ++ before) u := by
  obtain ⟨op, b, hb, hv, hvalue, huop⟩ := h.instruction_of_operand hlines hu
  by_cases hconst : p.constant? u = none
  · -- a parameter or an instruction has its number from the lists of its block
    have hagree : ∀ c ∈ (p.function f).blocks,
        ∀ w, w ∈ (p.block c).params ∨ w ∈ (p.block c).instructions → σ w = τ w := by
      intro c hc w hw
      have hparts := (hq.block c (h.built.block_lt hf hc)).symm.trans (hτ.block c)
      rcases hw with hw | hw
      · exact List.map_inj_left.1 (congrArg Block.params hparts) w hw
      · exact List.map_inj_left.1 (congrArg Block.instructions hparts) w hw
    have hoperation := operation?_eq_some_iff.2 ⟨b, hvalue⟩
    obtain ⟨c, hc, hwhere⟩ := refersTo_owns h.regions h.built hf hb hv op hoperation u huop hconst
    -- the number in the line is the one that was found, and both are that of the operand
    have hsame := hq.value_eq hσ hf hlines
    rw [hagree b hb v (Or.inr hv), hτ.value v (h.built.needed_instruction hv)] at hsame
    have hfind := (renumber_value_iff.1 hsame u hu).symm
    rw [← hagree c hc u hwhere] at hfind
    refine (h.lookup_told_iff hf (counts_recreated hσ hf) hlines hu).1 ?_
    have hknown := knows_iff.1 (hq.knows f hf) before v after hlines u hu
    obtain ⟨w, hw⟩ := Option.isSome_iff_exists.1 hknown
    rw [find, hw] at hfind
    rw [hw]
    exact congrArg some hfind
  · -- the line of a constant gives it a name of its own
    obtain ⟨c, hc⟩ := Option.ne_none_iff_exists'.1 hconst
    have hnone : p.argument? (p.function f) u = none :=
      argument?_of_constant (Option.isSome_iff_exists.2 ⟨c, hc⟩) _
    refine ⟨by rw [announces, value_of_constant? hc], fun name hname => ?_⟩
    rw [hnone] at hname
    cases hname

end

end Program

/-- A program `p` that was loaded comes back from its listing, up to the numbers of its values,
exactly if the names of the operands in the listing stand for them. -/
theorem load_listing_iff {text : String} {p : Program} (hload : Source.load text = .ok p) :
    (∃ q σ, Source.load p.listing = .ok q ∧ p.Renumbers q σ) ↔ p.Recoverable := by
  have h := loaded_of_load hload
  -- the number of a value is its place among those that the listing shows
  have hσ := Program.counts_idxOf h.nodup_recreatedUpTo
  constructor
  · rintro ⟨q, τ, hlisting, hτ⟩
    obtain ⟨functions, hread, hresolve, -⟩ := steps_of_load hlisting
    obtain rfl : p.decls = functions := Except.ok.inj (h.read_listing.symm.trans hread)
    have hq := h.reread_of_resolve hσ hresolve
    exact Program.recoverable_iff.2 fun f hf before v after hlines u hu =>
      hτ.told h hσ hq hf hlines hu
  · intro hrecoverable
    obtain ⟨q, hresolve⟩ := hrecoverable.exists_resolve h hσ
    have hrenumbers := hrecoverable.renumbers h hσ hresolve (h.reread_of_resolve hσ hresolve)
    have hvalid := hrenumbers.valid h.built (built_of_resolve hresolve) h.valid
    refine ⟨q, _, ?_, hrenumbers⟩
    have hvalidate : q.validate = .ok () := Program.validate_eq_ok_iff.2 hvalid
    unfold Source.load
    rw [h.read_listing]
    simp [hresolve, hvalidate, Except.mapError, bind, Except.bind, pure, Except.pure]

/-! ### Texts that do not come back -/

/-- An argument has the name that the result of the comparison gets in the listing. -/
def hiddenText : String :=
  "module \x7b fn f(v0: u64) -> u64 \x7b entry(): x = cmp eq v0 v0 ret u64 v0 \x7d \x7d"

/-- An instruction uses the result of one that gets no name in the listing. -/
def unnamedText : String :=
  "module \x7b fn f() -> () \x7b entry(): x = nop ret () x \x7d \x7d"

/-- An argument has the name of a number, but it is not used after a value has got it; one
constant is used twice and one not at all. -/
def recoverableText : String :=
  "module \x7b fn f(v1: bool, b: bool) -> bool \x7b entry(): c = const bool true " ++
  "d = const bool false n = and v1, c cbr n, left(b), right() left(x: bool): y = and x, c " ++
  "ret bool y right(): ret bool b \x7d \x7d"

/-- One of these texts comes back from its listing, the others do not. -/
theorem recoverable_texts :
    (∃ p, Source.load recoverableText = .ok p ∧
      ∃ q σ, Source.load p.listing = .ok q ∧ p.Renumbers q σ) ∧
    (∃ p, Source.load hiddenText = .ok p ∧
      ¬ ∃ q σ, Source.load p.listing = .ok q ∧ p.Renumbers q σ) ∧
    ∃ p, Source.load unnamedText = .ok p ∧
      ¬ ∃ q σ, Source.load p.listing = .ok q ∧ p.Renumbers q σ := by
  obtain ⟨p, hp, hrecoverable⟩ : ∃ p, Source.load recoverableText = .ok p ∧
      decide p.Recoverable = true := exists_load_of_map (by decide +kernel)
  obtain ⟨p₁, hp₁, hhidden⟩ : ∃ p, Source.load hiddenText = .ok p ∧
      decide p.Recoverable = false := exists_load_of_map (by decide +kernel)
  obtain ⟨p₂, hp₂, hunnamed⟩ : ∃ p, Source.load unnamedText = .ok p ∧
      decide p.Recoverable = false := exists_load_of_map (by decide +kernel)
  exact ⟨⟨p, hp, (load_listing_iff hp).2 (of_decide_eq_true hrecoverable)⟩,
    ⟨p₁, hp₁, mt (load_listing_iff hp₁).1 (of_decide_eq_false hhidden)⟩,
    ⟨p₂, hp₂, mt (load_listing_iff hp₂).1 (of_decide_eq_false hunnamed)⟩⟩

end FlowFacts
