import FlowFacts.Proofs.Flow.Shift
import FlowFacts.Proofs.Source.Recreated

/-!
# The text of a function at two places

A function of a text may stand behind other functions, in this text or in another one.  Its
values then have other numbers, its blocks and callees other names, and nothing else changes:
everything that its text means is moved by one relocation (`lineValues_eq`).  So what a text adds
to two programs is the same function at two places (`FunctionRead.value_eq`).

## Main definitions

* `Relocation.Moves` — an interval of blocks goes to another one.
* `Site.Relocates` — what instructions may refer to, at two places.

## Main results

* `OperationDecl.value_eq` — operations.
* `lineValues_eq` — the lines of a function.
* `FunctionRead.value_eq`, `FunctionRead.block_eq` — what a function adds to two programs.
-/

namespace FlowFacts

/-- The blocks from `start` on go to those from `start'` on, in order. -/
def Relocation.Moves (r : Relocation) (start start' length : Nat) : Prop :=
  ∀ i < length, r.block ⟨start + i⟩ = ⟨start' + i⟩

namespace Source

open Program

variable {r : Relocation} {n start start' : Nat} {scope : Scope} {site site' : Site} {b c : BlockId}

theorem moves_head {length : Nat} (h : r.Moves start start' (length + 1)) :
    r.block ⟨start⟩ = ⟨start'⟩ := h 0 (Nat.succ_pos _)

theorem moves_tail {length : Nat} (h : r.Moves start start' (length + 1)) :
    r.Moves (start + 1) (start' + 1) length := by
  intro i hi
  have hmoves := h (i + 1) (Nat.succ_lt_succ hi)
  rwa [Nat.add_comm i, ← Nat.add_assoc, ← Nat.add_assoc] at hmoves

/-! ### Heads of blocks -/

/-- The names of `scope` at another place. -/
def shiftScope (k : Nat) (scope : Scope) : Scope := scope.map fun x => (x.1, x.2.shift k)

theorem numbered_add (k : Nat) (xs : List (String × Ty)) : ∀ n,
    numbered (n + k) xs = shiftScope k (numbered n xs) := by
  induction xs with
  | nil => exact fun _ => rfl
  | cons x xs ih =>
    intro n
    rw [numbered, numbered, Nat.add_right_comm, ih (n + 1)]
    rfl

theorem map_snd_numbered_add (k n : Nat) (xs : List (String × Ty)) :
    (numbered (n + k) xs).map Prod.snd = ((numbered n xs).map Prod.snd).map (ValueId.shift k) := by
  rw [numbered_add, shiftScope, List.map_map, List.map_map]
  rfl

theorem labelled_eq (ds : List BlockDecl) : ∀ {start start' : Nat},
    r.Moves start start' ds.length →
      labelled start' ds = (labelled start ds).map fun x => (x.1, r.block x.2) := by
  induction ds with
  | nil => exact fun _ => rfl
  | cons d ds ih =>
    intro start start' h
    rw [labelled, labelled, List.map_cons, ih (moves_tail h), moves_head h]

theorem paramValues_eq (b : BlockId) (xs : List (String × Ty)) : ∀ i,
    paramValues (r.block b) i xs = (paramValues b i xs).map (Value.relocate r) := by
  induction xs with
  | nil => exact fun _ => rfl
  | cons x xs ih =>
    intro i
    rw [paramValues, paramValues, List.map_cons, ih]
    rfl

theorem headsValues_eq (ds : List BlockDecl) : ∀ {start start' : Nat},
    r.Moves start start' ds.length →
      headsValues start' ds = (headsValues start ds).map (Value.relocate r) := by
  induction ds with
  | nil => exact fun _ => rfl
  | cons d ds ih =>
    intro start start' h
    rw [headsValues, headsValues, List.map_append, ih (moves_tail h), ← moves_head h,
      paramValues_eq]

theorem headsScope_add (k : Nat) (ds : List BlockDecl) : ∀ (scope : Scope) (n : Nat),
    headsScope (shiftScope k scope) (n + k) ds = shiftScope k (headsScope scope n ds) := by
  induction ds with
  | nil => exact fun _ _ => rfl
  | cons d ds ih =>
    intro scope n
    rw [headsScope, headsScope, Nat.add_right_comm, ← ih, numbered_add, shiftScope, shiftScope,
      shiftScope, List.map_append, List.map_reverse]

/-- The heads of the blocks `ds` at another place. -/
theorem heads_add (k : Nat) (f g : FunctionId) (ds : List BlockDecl) : ∀ n,
    heads g (n + k) ds = (heads f n ds).map fun x =>
      { x with function := g, params := x.params.map (ValueId.shift k) } := by
  induction ds with
  | nil => exact fun _ => rfl
  | cons d ds ih =>
    intro n
    rw [heads, heads, Nat.add_right_comm, ih, map_snd_numbered_add]
    rfl

/-! ### Operations -/

theorem find_shiftScope {name : String} (h : Known scope name) (k : Nat) :
    find (shiftScope k scope) name = (find scope name).shift k := by
  rw [find, find, shiftScope, lookup_map_snd]
  obtain ⟨v, hv⟩ := Option.isSome_iff_exists.1 h
  rw [hv]
  rfl

theorem map_find_shiftScope {names : List String} (h : ∀ x ∈ names, Known scope x) (k : Nat) :
    names.map (find (shiftScope k scope)) = (names.map (find scope)).map (ValueId.shift k) := by
  rw [List.map_map]
  exact List.map_congr_left fun x hx => find_shiftScope (h x hx) k

/-- What instructions may refer to, at two places, `site` and `site'`. -/
structure Site.Relocates (site site' : Site) (r : Relocation) : Prop where
  /-- The labels are those of the blocks at the other place. -/
  labels : site'.labels = site.labels.map fun x => (x.1, r.block x.2)
  /-- A call that means a function means the other one. -/
  callee : ∀ path arity, (site.callee? path arity).isSome →
    site'.callee path arity = r.callee (site.callee path arity)

theorem Site.Relocates.block_eq (h : site.Relocates site' r) {label : String}
    (hlabel : (site.labels.lookup label).isSome) :
    site'.block label = r.block (site.block label) := by
  rw [Site.block, Site.block, h.labels,
    lookup_map_key (h := fun x : String => x) Function.injective_id r.block]
  obtain ⟨b, hb⟩ := Option.isSome_iff_exists.1 hlabel
  rw [hb]
  rfl

/-- An operation `d` means the same at both places. -/
theorem OperationDecl.value_eq {d : OperationDecl} (hsite : site.Relocates site' r)
    (h : d.Resolves site scope) (hcalled : d.Called site) (b : BlockId) :
    d.value site' (shiftScope r.values scope) (r.block b) = (d.value site scope b).relocate r := by
  cases d with
  | annotate name => rfl
  | nop => rfl
  | const ty value => rfl
  | not arg =>
    rw [OperationDecl.value, find_shiftScope h]
    rfl
  | binary op lhs rhs | compare predicate lhs rhs =>
    rw [OperationDecl.value, find_shiftScope h.1, find_shiftScope h.2]
    rfl
  | ret ty value =>
    rw [OperationDecl.value, find_shiftScope h]
    rfl
  | branch label args =>
    rw [OperationDecl.value, hsite.block_eq h.1, map_find_shiftScope h.2]
    rfl
  | call path args =>
    have hcallee : (site.callee? path args.length).isSome := by
      rw [Site.callee?, Option.isSome_map]
      exact hcalled
    rw [OperationDecl.value, hsite.callee _ _ hcallee, map_find_shiftScope h]
    rfl
  | condBranch cond trueLabel trueArgs falseLabel falseArgs =>
    rw [OperationDecl.value, find_shiftScope h.1, hsite.block_eq h.2.1, hsite.block_eq h.2.2.1,
      map_find_shiftScope h.2.2.2.1, map_find_shiftScope h.2.2.2.2]
    rfl

/-! ### Lines -/

theorem scope_shiftScope (d : InstructionDecl) (scope : Scope) (k n : Nat) :
    d.scope (shiftScope k scope) ⟨n + k⟩ = shiftScope k (d.scope scope ⟨n⟩) := by
  rw [InstructionDecl.scope, InstructionDecl.scope]
  cases d.name <;> rfl

theorem bodyScope_add (k : Nat) (ds : List InstructionDecl) : ∀ (scope : Scope) (n : Nat),
    bodyScope (shiftScope k scope) (n + k) ds = shiftScope k (bodyScope scope n ds) := by
  induction ds with
  | nil => exact fun _ _ => rfl
  | cons d ds ih =>
    intro scope n
    rw [bodyScope, bodyScope, scope_shiftScope, Nat.add_right_comm, ih]

theorem bodyIds_add (k : Nat) (ds : List InstructionDecl) : ∀ n,
    bodyIds (n + k) ds = (bodyIds n ds).map (ValueId.shift k) := by
  induction ds with
  | nil => exact fun _ => rfl
  | cons d ds ih =>
    intro n
    rw [bodyIds, bodyIds, Nat.add_right_comm, ih, List.map_append]
    cases d.operation.isConst <;> rfl

theorem bodyValues_eq (hsite : site.Relocates site' r) (b : BlockId) {ds : List InstructionDecl} :
    ∀ {scope : Scope} {n : Nat}, BodyResolves site scope n ds →
      (∀ d ∈ ds, d.operation.Called site) →
      bodyValues site' (r.block b) (shiftScope r.values scope) (n + r.values) ds =
        (bodyValues site b scope n ds).map (Value.relocate r) := by
  induction ds with
  | nil => exact fun _ _ => rfl
  | cons d ds ih =>
    intro scope n h hcalled
    rw [List.forall_mem_cons] at hcalled
    rw [bodyValues, bodyValues, List.map_cons, OperationDecl.value_eq hsite h.1 hcalled.1,
      scope_shiftScope, Nat.add_right_comm, ih h.2 hcalled.2]

theorem bodiesValues_eq (hsite : site.Relocates site' r) {ds : List BlockDecl} :
    ∀ {scope : Scope} {n start start' : Nat}, r.Moves start start' ds.length →
      BodiesResolve site scope n ds →
      (∀ d ∈ ds.flatMap BlockDecl.body, d.operation.Called site) →
      bodiesValues site' (shiftScope r.values scope) (n + r.values) start' ds =
        (bodiesValues site scope n start ds).map (Value.relocate r) := by
  induction ds with
  | nil => exact fun _ _ _ => rfl
  | cons d ds ih =>
    intro scope n start start' hmoves h hcalled
    rw [List.flatMap_cons, List.forall_mem_append] at hcalled
    rw [bodiesValues, bodiesValues, List.map_append, ← moves_head hmoves,
      bodyValues_eq hsite _ h.1 hcalled.1, bodyScope_add, Nat.add_right_comm,
      ih (moves_tail hmoves) h.2 hcalled.2]

/-- The lines of a block `c` at another place. -/
theorem bodiesIds_eq (c : BlockId) (ds : List BlockDecl) : ∀ {n start start' : Nat},
    r.Moves start start' ds.length →
      bodiesIds (n + r.values) start' ds (r.block c) =
        (bodiesIds n start ds c).map (ValueId.shift r.values) := by
  induction ds with
  | nil => exact fun _ => rfl
  | cons d ds ih =>
    intro n start start' hmoves
    rw [bodiesIds, bodiesIds, List.map_append, Nat.add_right_comm, ih (moves_tail hmoves),
      ← moves_head hmoves, bodyIds_add]
    by_cases hc : c = ⟨start⟩
    · rw [if_pos (congrArg r.block hc), if_pos hc]
    · rw [if_neg fun heq => hc (r.injective heq), if_neg hc]
      rfl

/-! ### Functions -/

section

variable {functions functions' : List FunctionDecl} {d : FunctionDecl} {p p' q q' : Program}
  {v : ValueId}

/-- What stands before the function `d` at its two places. -/
structure FunctionDecl.Relocates (d : FunctionDecl) (functions functions' : List FunctionDecl)
    (p p' : Program) (r : Relocation) : Prop where
  /-- There are more values before it at the other place. -/
  values : p'.values.size = p.values.size + r.values
  /-- Its blocks come behind others. -/
  blocks : r.Moves p.blocks.size p'.blocks.size d.layout.length
  /-- A call that means a function means the other one. -/
  callee : ∀ path arity, ((d.site functions p).callee? path arity).isSome →
    (d.site functions' p').callee path arity = r.callee ((d.site functions p).callee path arity)

variable (h : d.Relocates functions functions' p p' r)

include h

theorem relocates_site : (d.site functions p).Relocates (d.site functions' p') r :=
  ⟨labelled_eq d.layout h.blocks, h.callee⟩

/-- The lines of `d` mean the same at both places. -/
theorem lineValues_eq (hresolves : FunctionResolves functions ⟨0⟩ p d)
    (hcalled : ∀ x ∈ d.layout.flatMap BlockDecl.body, x.operation.CalledIn functions) :
    d.lineValues functions' p' = (d.lineValues functions p).map (Value.relocate r) := by
  have hscope : d.scope p' = shiftScope r.values (d.scope p) := by
    rw [FunctionDecl.scope, FunctionDecl.scope, h.values]
    exact headsScope_add r.values d.layout [] p.values.size
  rw [FunctionDecl.lineValues, FunctionDecl.lineValues, hscope, h.values, Nat.add_right_comm]
  exact bodiesValues_eq (relocates_site h) h.blocks hresolves.lines hcalled

variable (hread : FunctionRead functions ⟨0⟩ d p q) (hread' : FunctionRead functions' ⟨0⟩ d p' q')

include hread hread'

/-- The function `d` at both places. -/
theorem FunctionRead.function_eq : q'.function ⟨p'.functions.size⟩ =
    { q.function ⟨p.functions.size⟩ with
      args := (q.function ⟨p.functions.size⟩).args.map fun x => (x.1, x.2.shift r.values)
      entry := r.block (q.function ⟨p.functions.size⟩).entry
      others := (q.function ⟨p.functions.size⟩).others.map r.block } := by
  obtain ⟨entry, others, hlayout, -⟩ := d.exists_layout
  have hentry : r.block ⟨p.blocks.size⟩ = ⟨p'.blocks.size⟩ :=
    h.blocks 0 (by rw [hlayout]; exact Nat.succ_pos _)
  rw [hread'.function, hread.function, h.values, numbered_add, labelled_eq d.layout h.blocks,
    ← List.map_tail, List.map_map, List.map_map, hentry]
  rfl

/-- A block `b` of the function at both places. -/
theorem FunctionRead.block_eq (hb : b ∈ (q.function ⟨p.functions.size⟩).blocks) :
    (q'.block (r.block b)).label = (q.block b).label ∧
    (q'.block (r.block b)).params = (q.block b).params.map (ValueId.shift r.values) ∧
    (q'.block (r.block b)).instructions =
      (q.block b).instructions.map (ValueId.shift r.values) := by
  -- `b` comes from the block at place `i` of the tree, and so does its copy
  obtain ⟨i, x, rfl, hx, hparts⟩ := hread.exists_head hb
  have hi : i < d.layout.length := by
    obtain ⟨hi, -⟩ := List.getElem?_eq_some_iff.1 hx
    rwa [length_heads] at hi
  have hx' : (heads ⟨p'.functions.size⟩ p'.values.size d.layout)[i]? = some
      { x with
        function := ⟨p'.functions.size⟩
        params := x.params.map (ValueId.shift r.values) } := by
    rw [h.values, heads_add r.values ⟨p.functions.size⟩, List.getElem?_map, hx]
    rfl
  have hparts' := hread'.block i _ hx'
  have hids := bodiesIds_eq ⟨p.blocks.size + i⟩ d.layout
    (n := p.values.size + paramCount d.layout) h.blocks
  rw [h.blocks i hi, Nat.add_right_comm, ← h.values] at hids
  rw [h.blocks i hi]
  refine ⟨?_, ?_, ?_⟩
  · exact (congrArg Block.label hparts').trans (congrArg Block.label hparts).symm
  · exact (congrArg Block.params hparts').trans
      (congrArg (List.map (ValueId.shift r.values)) (congrArg Block.params hparts).symm)
  · exact (congrArg Block.instructions hparts').trans (hids.trans
      (congrArg (List.map (ValueId.shift r.values)) (congrArg Block.instructions hparts).symm))

/-- A value `v` of the function at both places. -/
theorem FunctionRead.value_eq (hresolves : FunctionResolves functions ⟨0⟩ p d)
    (hcalled : ∀ x ∈ d.layout.flatMap BlockDecl.body, x.operation.CalledIn functions)
    (hfirst : p.values.size ≤ v.index) (hlast : v.index < q.values.size) :
    q'.value (v.shift r.values) = (q.value v).relocate r := by
  obtain ⟨i, hi⟩ := Nat.exists_eq_add_of_le hfirst
  have hvalues := hread.values
  have hvalues' := hread'.values
  rw [headsValues_eq d.layout h.blocks, lineValues_eq h hresolves hcalled, List.append_assoc,
    ← List.map_append] at hvalues'
  rw [List.append_assoc] at hvalues
  -- the values of the function come behind those of `p` and `p'`; which they are does not matter
  generalize headsValues p.blocks.size d.layout ++ d.lineValues functions p = new
    at hvalues hvalues'
  have hvalue : q.value v = new[i]?.getD default := by
    rw [value_eq_getElem?, hvalues, List.getElem?_append_right (by simpa using hfirst), hi,
      Array.length_toList, Nat.add_sub_cancel_left]
  have hvalue' : q'.value (v.shift r.values) = (new.map (Value.relocate r))[i]?.getD default := by
    have hindex : (v.shift r.values).index = p'.values.toList.length + i := by
      rw [ValueId.index_shift, Array.length_toList, h.values, hi, Nat.add_right_comm]
    rw [value_eq_getElem?, hvalues', hindex, List.getElem?_append_right (Nat.le_add_right _ _),
      Nat.add_sub_cancel_left]
  have hlt : i < new.length := by
    have hsize := congrArg List.length hvalues
    rw [List.length_append, Array.length_toList, Array.length_toList] at hsize
    omega
  rw [hvalue, hvalue', List.getElem?_map, List.getElem?_eq_getElem hlt]
  rfl

end

end Source

end FlowFacts
