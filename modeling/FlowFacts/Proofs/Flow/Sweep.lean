import Mathlib.Algebra.Group.Action.Defs
import Mathlib.Algebra.Order.BigOperators.Group.List
import Mathlib.Algebra.Order.Ring.Nat
import FlowFacts.Proofs.Flow.Transfer
import FlowFacts.Proofs.Program.Order

/-!
# The search settles

While blocks are visited, a block that is not on the list of those to look at is settled:
what its incoming edges say is what it was last visited with.  A visit changes the edges of
one block only, and these lead to the same blocks each time, which are put on the list.  So
when the list is empty, all blocks are settled, and the edges of each are those that its
instructions and its terminator lead to from the environment it was visited with.

The number of visits is limited for each block, and the number of steps that the search may
take is larger than the limit for all blocks together.  So the search never stops early.

## Main definitions

* `Model.Obeys` — what a model adds after an instruction.
* `RunsThrough`, `LeavesBy` — from the start of a block on.
* `Swept` — the invariant of the search.
* `SweepsTo` — the states that a search comes to.

## Main results

* `yields_nextVisit`, `leadsTo_visit` — what one visit preserves.
* `leadsTo_settle` — where a search ends.
-/

namespace FlowFacts

open FormulaM FormulaTable AnalysisM

variable {t t' T : FormulaTable} {e e₁ e₂ e' : Environment} {v w : ValueId} {b c : BlockId}
  {i j n : Nat} {p : Program}

/-! ### Blocks -/

/-- A relation between the environments before and after what a model adds. -/
abbrev Model.Rule := FormulaTable → Program → ValueId → Environment → Environment → Prop

/-- The model `m` only grows the table, and adds what the rule `R` says. -/
def Model.Obeys (m : Model) (R : Model.Rule) : Prop :=
  ∀ {t : FormulaTable} {e : Environment} (p : Program) (v : ValueId), t.WellFormed → e.Within t →
    LeadsTo (m.refine p v e) t fun e' t' => e'.Within t' ∧ t'.Henceforth fun T => R T p v e e'

/-- The rule of the model of the checks in `c`. -/
def Catalogue.rule (c : Catalogue) : Model.Rule := fun T p v e e' => Refined T p c v e e'

theorem CheckModel.obeys (m : CheckModel) : m.model.Obeys m.catalogue.rule :=
  fun p v ht he => leadsTo_refine ht he m p v

variable {R : Model.Rule}

/-- From `e` before the instruction `v` to `e'` after it. -/
def Stepped (R : Model.Rule) (T : FormulaTable) (p : Program) (v : ValueId)
    (e e' : Environment) : Prop :=
  ∃ e₁, Transferred T p v e e₁ ∧ R T p v e₁ e'

/-- From before some instructions to after them. -/
inductive RunsThrough (R : Model.Rule) (T : FormulaTable) (p : Program) :
    List ValueId → Environment → Environment → Prop
  /-- There is no instruction left. -/
  | nil (e : Environment) : RunsThrough R T p [] e e
  /-- One instruction comes first. -/
  | cons {v : ValueId} {vs : List ValueId} {e e₁ e' : Environment} : Stepped R T p v e e₁ →
      RunsThrough R T p vs e₁ e' → RunsThrough R T p (v :: vs) e e'

/-- From `e` at the start of `b` to the ends of its `edges`. -/
def LeavesBy (R : Model.Rule) (T : FormulaTable) (p : Program) (b : BlockId) (e : Environment)
    (edges : List (BlockId × Environment)) : Prop :=
  ∃ e', RunsThrough R T p (p.block b).instructions e e' ∧ LeadsOut T p b e' edges

/-- The edges lead to where the terminator of `b` goes. -/
theorem LeadsOut.mem_map_fst_iff {edges : List (BlockId × Environment)}
    (h : LeadsOut T p b e edges) : c ∈ edges.map Prod.fst ↔ p.Edge b c := by
  unfold Program.Edge
  cases h with
  | branch hterm _ | condBranch hterm _ _ =>
    simp [Program.successors, hterm, Operation.targets, eq_comm]
  | same hterm hsame _ _ =>
    simp [Program.successors, hterm, Operation.targets, ← hsame, eq_comm]
  | none hnone => simp [hnone]

variable {task : Task} {start : Environment} {s s' : Sweep} {l : List Nat}

/-- The tasks that the theory is about: the model follows the rule `R`, and nothing is listed
twice. -/
structure Task.Regular (task : Task) (R : Model.Rule) : Prop where
  /-- The model adds what the rule says. -/
  model : task.model.Obeys R
  /-- The parameters of a block are different. -/
  params : ∀ b, (task.program.block b).params.Nodup
  /-- The blocks to visit are different. -/
  order : task.order.Nodup

theorem leadsTo_step (h : task.Regular R) (ht : t.WellFormed) (he : e.Within t) (v : ValueId) :
    LeadsTo (task.step e v) t fun e' t' => e'.Within t' ∧
      t'.Henceforth fun T => Stepped R T task.program v e e' := by
  refine (leadsTo_report ht _).bind ?_
  rintro - t₁ ht₁ - rfl
  refine (leadsTo_lift (yields_transfer ht₁ he task.program v)).bind ?_
  rintro e₁ t₂ ht₂ _ ⟨he₁, htransferred⟩
  refine (h.model task.program v ht₂ he₁).mono ?_
  rintro e' t₃ _ hg₃ ⟨he', hrule⟩
  exact ⟨he', fun T hT hgT => ⟨e₁, htransferred T hT (hg₃.trans hgT), hrule T hT hgT⟩⟩

theorem leadsTo_foldlM_step (h : task.Regular R) {vs : List ValueId} : ∀ {t : FormulaTable}
    {e : Environment}, t.WellFormed → e.Within t →
      LeadsTo (vs.foldlM task.step e) t fun e' t' => e'.Within t' ∧
        t'.Henceforth fun T => RunsThrough R T task.program vs e e' := by
  induction vs with
  | nil => exact fun ht he => leadsTo_pure ht ⟨he, fun T _ _ => .nil _⟩
  | cons v vs ih =>
    intro t e ht he
    rw [List.foldlM_cons]
    refine (leadsTo_step h ht he v).bind ?_
    rintro e₁ t₁ ht₁ _ ⟨he₁, hstep⟩
    refine (ih ht₁ he₁).mono ?_
    rintro e' t₂ _ hg₂ ⟨he', hrun⟩
    exact ⟨he', fun T hT hgT => .cons (hstep T hT (hg₂.trans hgT)) (hrun T hT hgT)⟩

/-! ### The invariant -/

/-- What the incoming edges of `b`, the block at position `i`, say. -/
def Task.Arrives (task : Task) (T : FormulaTable) (start : Environment) (s : Sweep) (i : Nat)
    (b : BlockId) (r : Option Environment) : Prop :=
  if i = 0 then r = some start else JoinedAll T (task.incoming s b) r

/-- What the incoming edges of `b` say is what the block was visited with. -/
def Task.Settled (task : Task) (t : FormulaTable) (start : Environment) (s : Sweep) (i : Nat)
    (b : BlockId) : Prop :=
  ∃ r, (t.Henceforth fun T => task.Arrives T start s i b r) ∧
    ∀ e' ∈ r, ∃ e, s.input? i = some e ∧ t.Henceforth fun T => SaysTheSame T e e'

theorem Task.Settled.mono (h : task.Settled t start s i b) (hg : t.Grows t') :
    task.Settled t' start s i b := by
  obtain ⟨r, harrives, hsame⟩ := h
  refine ⟨r, harrives.mono hg, fun e' he' => ?_⟩
  obtain ⟨e, he, hee'⟩ := hsame e' he'
  exact ⟨e, he, hee'.mono hg⟩

/-- The edges from the block at position `i`. -/
def Sweep.edgesFrom (s : Sweep) (i : Nat) : List (BlockId × Environment) := s.edges[i]?.getD []

/-- The invariant of the search, with the positions `pending` of the blocks that may not be
settled. -/
structure Swept (R : Model.Rule) (task : Task) (start : Environment) (t : FormulaTable)
    (s : Sweep) (pending : List Nat) : Prop where
  /-- There is an input for each block. -/
  inputs_size : s.inputs.size = task.order.length
  /-- There are edges for each block. -/
  edges_size : s.edges.size = task.order.length
  /-- The inputs are in the table. -/
  input_within : ∀ {i e}, s.input? i = some e → e.Within t
  /-- The ends of the edges are in the table. -/
  edge_within : ∀ {i x}, x ∈ s.edgesFrom i → x.2.Within t
  /-- The edges from a block lead to where its terminator goes. -/
  exits : ∀ {i b x}, task.order[i]? = some b → x ∈ s.edgesFrom i → task.program.Edge b x.1
  /-- The edges from a block say what follows from its input. -/
  left : ∀ {i b e}, task.order[i]? = some b → s.input? i = some e →
    t.Henceforth fun T => LeavesBy R T task.program b e (s.edgesFrom i)
  /-- The other blocks are settled. -/
  settled : ∀ {i b}, task.order[i]? = some b → i ∉ pending → task.Settled t start s i b

theorem Swept.mono {pending : List Nat} (h : Swept R task start t s pending)
    (hg : t.Grows t') : Swept R task start t' s pending where
  inputs_size := h.inputs_size
  edges_size := h.edges_size
  input_within he := (h.input_within he).mono hg
  edge_within hx := (h.edge_within hx).mono hg
  exits := h.exits
  left hb he := (h.left hb he).mono hg
  settled hb hi := (h.settled hb hi).mono hg

theorem mem_edgesFrom_of_edge? (h : s.edge? i b = some e) : (b, e) ∈ s.edgesFrom i := by
  rw [Sweep.edge?, List.lookup_eq_some_iff] at h
  obtain ⟨l₁, l₂, hl, -⟩ := h
  rw [Sweep.edgesFrom, hl]
  simp

/-- An environment `e` that arrives at `b` comes along an edge from a listed block. -/
theorem mem_incoming_iff : e ∈ task.incoming s b ↔ ∃ i c, task.order[i]? = some c ∧
    c ∈ (task.program.block b).preds ∧ s.edge? i b = some e := by
  simp only [Task.incoming, List.mem_filterMap, Prod.exists, List.mem_zipIdx_iff_getElem?,
    Option.ite_none_right_eq_some, List.contains_iff_mem]
  exact exists_comm

theorem Swept.incoming_within {pending : List Nat} (h : Swept R task start t s pending)
    (he : e ∈ task.incoming s b) : e.Within t := by
  obtain ⟨i, c, -, -, hedge⟩ := mem_incoming_iff.1 he
  exact h.edge_within (mem_edgesFrom_of_edge? hedge)

/-- What arrives at `b` depends only on the edges that lead there. -/
theorem incoming_congr (h : ∀ i c, task.order[i]? = some c → s.edge? i b = s'.edge? i b) :
    task.incoming s b = task.incoming s' b := by
  refine List.filterMap_congr fun x hx => ?_
  rw [h x.2 x.1 (List.mem_zipIdx_iff_getElem?.1 hx)]

theorem Sweep.input?_start (n i : Nat) : (Sweep.start n).input? i = none := by
  simp only [Sweep.input?, Sweep.start, Array.getElem?_replicate]
  split <;> rfl

theorem Sweep.edgesFrom_start (n i : Nat) : (Sweep.start n).edgesFrom i = [] := by
  simp only [Sweep.edgesFrom, Sweep.start, Array.getElem?_replicate]
  split <;> rfl

theorem Sweep.visitCount_start (n i : Nat) : (Sweep.start n).visitCount i = 0 := by
  simp only [Sweep.visitCount, Sweep.start, Array.getElem?_replicate]
  split <;> rfl

theorem swept_start : Swept R task start t (.start task.order.length) [0] := by
  have hincoming : ∀ b, task.incoming (.start task.order.length) b = [] := fun b => by
    refine List.eq_nil_iff_forall_not_mem.2 fun e he => ?_
    obtain ⟨i, c, -, -, hedge⟩ := mem_incoming_iff.1 he
    have hmem := mem_edgesFrom_of_edge? hedge
    simp [Sweep.edgesFrom_start] at hmem
  exact {
    inputs_size := Array.size_replicate
    edges_size := Array.size_replicate
    input_within := fun he => by simp [Sweep.input?_start] at he
    edge_within := fun hx => by simp [Sweep.edgesFrom_start] at hx
    exits := fun _ hx => by simp [Sweep.edgesFrom_start] at hx
    left := fun _ he => by simp [Sweep.input?_start] at he
    settled := fun {i b} _ hi => by
      refine ⟨none, fun T _ _ => ?_, by simp⟩
      unfold Task.Arrives
      beta_reduce
      rw [if_neg (by simpa using hi), hincoming]
      rfl }

/-! ### One visit -/

theorem mem_insertPosition : j ∈ insertPosition i l ↔ j = i ∨ j ∈ l := by
  induction l with
  | nil => simp [insertPosition]
  | cons k rest ih =>
    rw [insertPosition]
    split
    · simp
    · split
      · rw [List.mem_cons, ih, List.mem_cons]
        tauto
      · have hik : i = k := by omega
        simp [hik]

theorem mem_foldl_insertPosition {ps : List Nat} : ∀ {l : List Nat},
    j ∈ ps.foldl (fun l i => insertPosition i l) l ↔ j ∈ ps ∨ j ∈ l := by
  induction ps with
  | nil => simp
  | cons i ps ih =>
    intro l
    rw [List.foldl_cons, ih, mem_insertPosition, List.mem_cons]
    tauto

/-- What the incoming edges of `b` say is found. -/
theorem yields_input (ht : t.WellFormed) (hstart : start.Within t)
    (hin : ∀ e ∈ task.incoming s b, e.Within t) (i : Nat) :
    Yields (task.input start s i b) t fun r t' => (∀ e ∈ r, e.Within t') ∧
      t'.Henceforth fun T => task.Arrives T start s i b r := by
  unfold Task.input Task.Arrives
  split
  · exact yields_pure ht ⟨by simpa using hstart, fun T _ _ => rfl⟩
  · exact yields_joinAll ht hin

/-- The environment `e` says something else than the one that the block at `i` was last visited
with. -/
def Sweep.Changed (s : Sweep) (T : FormulaTable) (i : Nat) (e : Environment) : Prop :=
  ∀ previous, s.input? i = some previous → ¬ SaysTheSame T previous e

/-- The outcome `r` of looking through the positions `l`: those before the visit that is due are
settled, and all of them if none is. -/
structure Due (task : Task) (t : FormulaTable) (start : Environment) (s : Sweep) (l : List Nat)
    (r : Option Task.Visit) : Prop where
  /-- The visit is of a listed block. -/
  block : ∀ v ∈ r, task.order[v.position]? = some v.block
  /-- Its environment is in the table. -/
  within : ∀ v ∈ r, v.input.Within t
  /-- The incoming edges say so. -/
  arrives : ∀ v ∈ r, t.Henceforth fun T => task.Arrives T start s v.position v.block (some v.input)
  /-- They say something else than at the last visit. -/
  changed : ∀ v ∈ r, t.Henceforth fun T => s.Changed T v.position v.input
  /-- The positions that are not left are settled. -/
  settled : ∀ i ∈ l, ∀ b, task.order[i]? = some b → task.Settled t start s i b ∨
    ∃ v ∈ r, i = v.position ∨ i ∈ v.rest

theorem Due.mono {r : Option Task.Visit} (h : Due task t start s l r) (hg : t.Grows t') :
    Due task t' start s l r where
  block := h.block
  within v hv := (h.within v hv).mono hg
  arrives v hv := (h.arrives v hv).mono hg
  changed v hv := (h.changed v hv).mono hg
  settled i hi b hb := (h.settled i hi b hb).imp_left fun hsettled => hsettled.mono hg

theorem Due.skip {r : Option Task.Visit} (h : Due task t start s l r)
    (hi : ∀ b, task.order[i]? = some b → task.Settled t start s i b) :
    Due task t start s (i :: l) r where
  block := h.block
  within := h.within
  arrives := h.arrives
  changed := h.changed
  settled := by
    rw [List.forall_mem_cons]
    exact ⟨fun b hb => Or.inl (hi b hb), h.settled⟩

theorem yields_nextVisit (hstart : start.Within t) :
    ∀ {t' : FormulaTable}, t'.WellFormed → t.Grows t' →
      (∀ b, ∀ e ∈ task.incoming s b, e.Within t) → (∀ i e, s.input? i = some e → e.Within t) →
      Yields (task.nextVisit start s l) t' fun r t'' => Due task t'' start s l r := by
  induction l with
  | nil =>
    intro t' ht' _ _ _
    exact yields_pure ht' ⟨by simp, by simp, by simp, by simp, by simp⟩
  | cons i rest ih =>
    intro t' ht' hg hin hinput
    -- the rest is looked through once the first position is known to be settled
    have hskip : ∀ {t₁ : FormulaTable}, t₁.WellFormed → t.Grows t₁ →
        (∀ b, task.order[i]? = some b → task.Settled t₁ start s i b) →
        Yields (task.nextVisit start s rest) t₁ fun r t'' => Due task t'' start s (i :: rest) r :=
      fun ht₁ hg₁ hsettled => (ih ht₁ hg₁ hin hinput).mono fun r t'' _ hg' hdue =>
        hdue.skip fun b hb => (hsettled b hb).mono hg'
    rw [Task.nextVisit]
    cases hb : task.order[i]? with
    | none => exact hskip ht' hg (by simp [hb])
    | some b =>
      refine (yields_input ht' (hstart.mono hg) (fun e he => (hin b e he).mono hg) i).bind ?_
      rintro r t₁ ht₁ hg₁ ⟨hwithin, harrives⟩
      have hg₀₁ := hg.trans hg₁
      cases r with
      | none =>
        refine hskip ht₁ hg₀₁ fun b' hb' => ?_
        rw [hb, Option.some.injEq] at hb'
        exact ⟨none, hb' ▸ harrives, by simp⟩
      | some e =>
        -- the first position is due if something else arrives than at its last visit
        have hdue : ∀ {t₂ : FormulaTable}, t₁.Grows t₂ →
            (t₂.Henceforth fun T => s.Changed T i e) →
            Due task t₂ start s (i :: rest) (some ⟨i, b, e, rest⟩) := fun hg₂ hchanged =>
          { block := by simpa using hb
            within := by simpa using (hwithin e rfl).mono hg₂
            arrives := by simpa using harrives.mono hg₂
            changed := by simpa using hchanged
            settled := fun j hj _ _ => Or.inr ⟨_, rfl, List.mem_cons.1 hj⟩ }
        cases hprev : s.input? i with
        | none =>
          exact yields_pure ht₁ (hdue (.refl t₁) fun T _ _ => by simp [Sweep.Changed, hprev])
        | some previous =>
          refine (yields_equivalent ht₁ ((hinput i previous hprev).mono hg₀₁)
            (hwithin e rfl)).bind fun same t₂ ht₂ hg₂ hsame => ?_
          cases same with
          | false =>
            refine yields_pure ht₂ (hdue hg₂ fun T hT hgT => ?_)
            simpa [Sweep.Changed, hprev] using hsame T hT hgT
          | true =>
            refine hskip ht₂ (hg₀₁.trans hg₂) fun b' hb' => ?_
            rw [hb, Option.some.injEq] at hb'
            refine ⟨some e, hb' ▸ harrives.mono hg₂, ?_⟩
            rintro _ ⟨⟩
            exact ⟨previous, hprev, fun T hT hgT => (hsame T hT hgT).1 rfl⟩

namespace Sweep

variable {edges : List (BlockId × Environment)} {pending : List Nat}

theorem input?_visited (h : i < s.inputs.size) :
    (s.visited i e edges pending).input? j = if j = i then some e else s.input? j := by
  simp only [input?, visited, Array.getElem?_setIfInBounds]
  by_cases hij : i = j
  · subst hij
    simp [h]
  · simp [hij, Ne.symm hij]

theorem edgesFrom_visited (h : i < s.edges.size) :
    (s.visited i e edges pending).edgesFrom j = if j = i then edges else s.edgesFrom j := by
  simp only [edgesFrom, visited, Array.getElem?_setIfInBounds]
  by_cases hij : i = j
  · subst hij
    simp [h]
  · simp [hij, Ne.symm hij]

theorem visitCount_visited (h : i < s.visits.size) :
    (s.visited i e edges pending).visitCount j =
      if j = i then s.visitCount i + 1 else s.visitCount j := by
  simp only [visitCount, visited, Array.getElem?_setIfInBounds]
  by_cases hij : i = j
  · subst hij
    simp [h]
  · simp [hij, Ne.symm hij]

theorem edge?_eq : s.edge? i b = (s.edgesFrom i).lookup b := rfl

end Sweep

/-- There is no edge to a block `c` that the terminator of `b` does not go to. -/
theorem lookup_eq_none_of_not_edge {edges : List (BlockId × Environment)}
    (hexits : ∀ x ∈ edges, p.Edge b x.1) (hc : ¬ p.Edge b c) : edges.lookup c = none := by
  rw [List.lookup_eq_none_iff]
  intro x hx
  rw [bne_iff_ne]
  rintro rfl
  exact hc (hexits x hx)

/-- A block `b` of an `order` without repetition is found at its position. -/
theorem idxOf?_eq_some_of_nodup {order : List BlockId} (h : order.Nodup)
    (hb : order[i]? = some b) : order.idxOf? b = some i := by
  obtain ⟨hlt, rfl⟩ := List.getElem?_eq_some_iff.1 hb
  rw [List.idxOf?_eq_some_iff]
  refine ⟨hlt, rfl, fun j hj => ?_⟩
  exact fun heq => absurd ((h.getElem_inj_iff).1 heq) (Nat.ne_of_lt hj)

/-- A visit of `b` changes nothing at a block `c` that it does not branch to. -/
theorem incoming_visited_of_not_edge {edges : List (BlockId × Environment)} {pending : List Nat}
    (hi : i < s.edges.size) (hold : ∀ x ∈ s.edgesFrom i, task.program.Edge b x.1)
    (hnew : ∀ x ∈ edges, task.program.Edge b x.1) (hc : ¬ task.program.Edge b c) :
    task.incoming (s.visited i e edges pending) c = task.incoming s c := by
  refine incoming_congr fun k d _ => ?_
  rw [Sweep.edge?_eq, Sweep.edge?_eq, Sweep.edgesFrom_visited hi]
  split
  · rename_i hk
    rw [hk, lookup_eq_none_of_not_edge hnew hc, lookup_eq_none_of_not_edge hold hc]
  · rfl

/-- Once all blocks on the list were looked at, they are settled, apart from the one whose visit
`v` is due and those after it. -/
theorem Swept.settled_of_due {pending : List Nat} {v : Option Task.Visit}
    (h : Swept R task start t s pending) (hdue : Due task t start s pending v)
    (hb : task.order[j]? = some b) (hv : ∀ w, v = some w → j ≠ w.position ∧ j ∉ w.rest) :
    task.Settled t start s j b := by
  by_cases hmem : j ∈ pending
  · rcases hdue.settled j hmem b hb with hsettled | ⟨w, hw, hpos | hrest⟩
    · exact hsettled
    · exact absurd hpos (hv w hw).1
    · exact absurd hrest (hv w hw).2
  · exact h.settled hb hmem

/-- After the visit `v`, the blocks that its edges lead to are to be looked at. -/
theorem Swept.visited {pending : List Nat} {edges : List (BlockId × Environment)}
    {v : Task.Visit} (h : Swept R task start t s pending) (hreg : task.Regular R)
    (hdue : Due task t start s pending (some v)) (hedges : ∀ x ∈ edges, x.2.Within t)
    (hleft : t.Henceforth fun T => LeavesBy R T task.program v.block v.input edges)
    (hexits : ∀ c, c ∈ edges.map Prod.fst ↔ task.program.Edge v.block c) {pending' : List Nat}
    (hrest : ∀ j ∈ v.rest, j ∈ pending')
    (htargets : ∀ c j, task.program.Edge v.block c → task.order.idxOf? c = some j → j ∈ pending') :
    Swept R task start t (s.visited v.position v.input edges pending') pending' := by
  have hblock := hdue.block v rfl
  have hlt : v.position < task.order.length := (List.getElem?_eq_some_iff.1 hblock).1
  have hin : ∀ j, (s.visited v.position v.input edges pending').input? j =
      if j = v.position then some v.input else s.input? j :=
    fun j => Sweep.input?_visited (h.inputs_size.symm ▸ hlt)
  have hout : ∀ j, (s.visited v.position v.input edges pending').edgesFrom j =
      if j = v.position then edges else s.edgesFrom j :=
    fun j => Sweep.edgesFrom_visited (h.edges_size.symm ▸ hlt)
  have hexits' : ∀ x ∈ edges, task.program.Edge v.block x.1 := fun x hx =>
    (hexits x.1).1 (List.mem_map_of_mem hx)
  refine ⟨?_, ?_, fun {j e} he => ?_, fun {j x} hx => ?_, fun {j b x} hb hx => ?_,
    fun {j b e} hb he => ?_, fun {j b} hb hj => ?_⟩
  · rw [Sweep.visited, Array.size_setIfInBounds, h.inputs_size]
  · rw [Sweep.visited, Array.size_setIfInBounds, h.edges_size]
  · -- inputs and edges are those of the visit or of before
    rw [hin] at he
    split at he
    · cases he
      exact hdue.within v rfl
    · exact h.input_within he
  · rw [hout] at hx
    split at hx
    · exact hedges x hx
    · exact h.edge_within hx
  · rw [hout] at hx
    split at hx
    · rename_i hjv
      rw [hjv, hblock, Option.some.injEq] at hb
      exact hb ▸ hexits' x hx
    · exact h.exits hb hx
  · rw [hin] at he
    rw [hout]
    split at he
    · rename_i hjv
      cases he
      rw [hjv, hblock, Option.some.injEq] at hb
      rw [if_pos hjv]
      exact hb ▸ hleft
    · rename_i hjv
      rw [if_neg hjv]
      exact h.left hb he
  · -- the block is no target, so what arrives at it is as before the visit
    have hnot : ¬ task.program.Edge v.block b := fun hedge =>
      hj (htargets b j hedge (idxOf?_eq_some_of_nodup hreg.order hb))
    have harrives : ∀ {T r}, task.Arrives T start s j b r →
        task.Arrives T start (s.visited v.position v.input edges pending') j b r := by
      intro T r
      rw [Task.Arrives, Task.Arrives, incoming_visited_of_not_edge (h.edges_size.symm ▸ hlt)
        (fun x hx => h.exits hblock hx) hexits' hnot]
      exact id
    -- the block that was visited, which does not branch to itself, or another one
    by_cases hjv : j = v.position
    · rw [hjv, hblock, Option.some.injEq] at hb
      subst hb
      refine ⟨some v.input, fun T hT hgT => harrives (hjv ▸ hdue.arrives v rfl T hT hgT), ?_⟩
      rintro _ ⟨⟩
      exact ⟨v.input, by rw [hin, if_pos hjv], fun T _ _ => .refl T v.input⟩
    · have hv : ∀ w, some v = some w → j ≠ w.position ∧ j ∉ w.rest := by
        rintro _ ⟨⟩
        exact ⟨hjv, fun hmem => hj (hrest j hmem)⟩
      obtain ⟨r, hr, hsame⟩ := h.settled_of_due hdue hb hv
      refine ⟨r, fun T hT hgT => harrives (hr T hT hgT), fun e' he' => ?_⟩
      obtain ⟨e, he, hee'⟩ := hsame e' he'
      exact ⟨e, by rw [hin, if_neg hjv, he], hee'⟩

theorem leadsTo_visit {pending : List Nat} {v : Task.Visit} (hreg : task.Regular R)
    (ht : t.WellFormed) (h : Swept R task start t s pending)
    (hdue : Due task t start s pending (some v)) :
    LeadsTo (task.visit s v) t fun s' t' => Swept R task start t' s' s'.pending ∧
      ∃ edges, s' = s.visited v.position v.input edges s'.pending ∧
        t'.Henceforth fun T => LeavesBy R T task.program v.block v.input edges := by
  refine (leadsTo_report ht _).bind ?_
  rintro - t₁ ht₁ - rfl
  refine (leadsTo_foldlM_step hreg ht₁ (hdue.within v rfl)).bind ?_
  rintro e t₂ ht₂ hg₂ ⟨he, hrun⟩
  refine (leadsTo_lift (yields_outgoing ht₂ he hreg.params)).bind ?_
  rintro edges t₃ ht₃ hg₃ ⟨hedges, hout⟩
  have hg₁₃ := hg₂.trans hg₃
  have hexits : ∀ c, c ∈ edges.map Prod.fst ↔ task.program.Edge v.block c :=
    fun c => (hout t₃ ht₃ (.refl t₃)).mem_map_fst_iff
  have hleft : t₃.Henceforth fun T => LeavesBy R T task.program v.block v.input edges :=
    fun T hT hgT => ⟨e, hrun T hT (hg₃.trans hgT), hout T hT hgT⟩
  refine leadsTo_pure ht₃ ⟨?_, edges, rfl, hleft⟩
  -- the positions that are left stay on the list, and the targets of the edges are put there
  refine (h.mono hg₁₃).visited hreg (hdue.mono hg₁₃) hedges hleft hexits (fun j hj => ?_)
    fun c j hedge hj => ?_
  · exact mem_foldl_insertPosition.2 (Or.inr hj)
  · obtain ⟨x, hx, rfl⟩ := List.mem_map.1 ((hexits c).2 hedge)
    exact mem_foldl_insertPosition.2 (Or.inl (List.mem_filterMap.2 ⟨x, hx, hj⟩))

/-! ### The search -/

/-- No block was visited more often than `task` allows. -/
structure Counted (task : Task) (s : Sweep) : Prop where
  /-- The visits of each block are counted. -/
  size : s.visits.size = task.order.length
  /-- The limit is kept. -/
  le : ∀ k ∈ s.visits.toList, k ≤ task.visitLimit

theorem counted_start : Counted task (.start task.order.length) where
  size := Array.size_replicate
  le := by simp [Sweep.start]

theorem totalVisits_eq_sum (s : Sweep) : s.totalVisits = s.visits.toList.sum := rfl

theorem Counted.totalVisits_le (h : Counted task s) :
    s.totalVisits ≤ task.visitLimit * task.order.length := by
  have hsum := List.sum_le_card_nsmul s.visits.toList task.visitLimit h.le
  rwa [Array.length_toList, h.size, smul_eq_mul, Nat.mul_comm] at hsum

theorem sum_set_succ : ∀ {i : Nat} (h : i < l.length),
    (l.set i (l[i] + 1)).sum = l.sum + 1 := by
  induction l with
  | nil => simp
  | cons x l ih =>
    intro i h
    cases i with
    | zero =>
      simp only [List.set_cons_zero, List.getElem_cons_zero, List.sum_cons]
      omega
    | succ i =>
      simp only [List.set_cons_succ, List.getElem_cons_succ, List.sum_cons]
      rw [ih (by simpa using h)]
      omega

/-- A visit of the block at `i` within the limit counts for one. -/
theorem Counted.visited (h : Counted task s) (hi : i < task.order.length)
    (hlimit : ¬ task.visitLimit ≤ s.visitCount i)
    (hvisits : s'.visits = s.visits.setIfInBounds i (s.visitCount i + 1)) :
    Counted task s' ∧ s'.totalVisits = s.totalVisits + 1 := by
  have hlt : i < s.visits.toList.length := by rwa [Array.length_toList, h.size]
  have hcount : s.visitCount i = s.visits.toList[i] := by
    simp [Sweep.visitCount, Array.getElem?_eq_getElem (by simpa using hlt : i < s.visits.size)]
  have hlist : s'.visits.toList = s.visits.toList.set i (s.visits.toList[i] + 1) := by
    rw [hvisits, Array.toList_setIfInBounds, hcount]
  refine ⟨⟨?_, fun k hk => ?_⟩, ?_⟩
  · rw [hvisits, Array.size_setIfInBounds, h.size]
  · rw [hlist] at hk
    rcases List.mem_or_eq_of_mem_set hk with hk | rfl
    · exact h.le k hk
    · omega
  · rw [totalVisits_eq_sum, hlist, sum_set_succ hlt, totalVisits_eq_sum]

/-- The states that a search comes to, visit by visit, in terms of one table `T` that the tables
on the way grow into. -/
inductive SweepsTo (R : Model.Rule) (task : Task) (T : FormulaTable) (start : Environment) :
    Sweep → Prop
  /-- Nothing was visited. -/
  | start : SweepsTo R task T start (.start task.order.length)
  /-- A block is visited at which something changed. -/
  | visit {s : Sweep} {i : Nat} {b : BlockId} {e : Environment}
      {edges : List (BlockId × Environment)} {pending : List Nat} :
      SweepsTo R task T start s → task.order[i]? = some b →
      task.Arrives T start s i b (some e) → s.Changed T i e →
      LeavesBy R T task.program b e edges →
      SweepsTo R task T start (s.visited i e edges pending)
  /-- Some blocks are looked at. -/
  | look {s : Sweep} {pending : List Nat} :
      SweepsTo R task T start s → SweepsTo R task T start { s with pending }

/-- A visit is due, but `task` does not allow it. -/
def Task.Exhausted (task : Task) (R : Model.Rule) (T : FormulaTable) (start : Environment) :
    Prop :=
  ∃ s i b e, SweepsTo R task T start s ∧ task.order[i]? = some b ∧
    task.Arrives T start s i b (some e) ∧ s.Changed T i e ∧ task.visitLimit ≤ s.visitCount i

/-- Where a search of `task` ends: in a state that it came to, or because a visit is not allowed. -/
def EndsWith (R : Model.Rule) (task : Task) (T : FormulaTable) (start : Environment) :
    Except AnalysisError Sweep → Prop
  | .ok s => SweepsTo R task T start s
  | .error _ => task.Exhausted R T start

/-- A search ends in a state that it came to.  If `n` steps are enough, all blocks are settled
then: each step is a visit, and the visits are limited. -/
theorem leadsTo_settle (hreg : task.Regular R) : ∀ {n : Nat} {t : FormulaTable} {s : Sweep},
    t.WellFormed → start.Within t → Swept R task start t s s.pending → Counted task s →
      (t.Henceforth fun T => SweepsTo R task T start s) →
      LeadsTo (task.settle start n s) t fun r t' =>
        (t'.Henceforth fun T => EndsWith R task T start r) ∧
          ∀ s', r = .ok s' → Swept R task start t' s' s'.pending ∧
            (task.visitLimit * task.order.length < s.totalVisits + n → s'.pending = []) := by
  intro n
  induction n with
  -- no step is left, so there were not enough of them
  | zero =>
    intro t s ht _ h hcounted hsweeps
    refine leadsTo_pure ht ⟨hsweeps, ?_⟩
    rintro _ ⟨⟩
    refine ⟨h, fun hsteps => ?_⟩
    have := hcounted.totalVisits_le
    omega
  | succ n ih =>
    intro t s ht hstart h hcounted hsweeps
    rw [Task.settle]
    refine (leadsTo_lift (yields_nextVisit hstart ht (.refl t) (fun b e he => h.incoming_within he)
      fun i e he => h.input_within he)).bind fun r t₁ ht₁ hg₁ hdue => ?_
    have h₁ := h.mono hg₁
    have hsweeps₁ := hsweeps.mono hg₁
    cases r with
    | none =>
      refine leadsTo_pure ht₁ ⟨fun T hT hgT => (hsweeps₁ T hT hgT).look, ?_⟩
      rintro _ ⟨⟩
      exact ⟨⟨h₁.inputs_size, h₁.edges_size, h₁.input_within, h₁.edge_within, h₁.exits, h₁.left,
        fun {i b} hb _ => h₁.settled_of_due hdue hb (by simp)⟩, fun _ => rfl⟩
    | some v =>
      have hblock := hdue.block v rfl
      dsimp only
      split
      · rename_i hlimit
        refine leadsTo_pure ht₁ ⟨fun T hT hgT => ?_, by simp⟩
        exact ⟨s, v.position, v.block, v.input, hsweeps₁ T hT hgT, hblock,
          hdue.arrives v rfl T hT hgT, hdue.changed v rfl T hT hgT, hlimit⟩
      · rename_i hlimit
        apply (leadsTo_visit hreg ht₁ h₁ hdue).bind
        rintro s₂ t₂ ht₂ hg₂ ⟨h₂, edges, hs₂, hleft⟩
        have hlt := (List.getElem?_eq_some_iff.1 hblock).1
        obtain ⟨hcounted₂, htotal⟩ := hcounted.visited hlt hlimit (congrArg Sweep.visits hs₂)
        have hsweeps₂ : t₂.Henceforth fun T => SweepsTo R task T start s₂ := by
          intro T hT hgT
          have hgT₁ := hg₂.trans hgT
          rw [hs₂]
          exact .visit (hsweeps₁ T hT hgT₁) hblock (hdue.arrives v rfl T hT hgT₁)
            (hdue.changed v rfl T hT hgT₁) (hleft T hT hgT)
        refine (ih ht₂ (hstart.mono (hg₁.trans hg₂)) h₂ hcounted₂ hsweeps₂).mono ?_
        rintro r t₃ _ _ ⟨hends, hswept⟩
        refine ⟨hends, fun s' hs' => ⟨(hswept s' hs').1, fun hsteps => (hswept s' hs').2 ?_⟩⟩
        omega

end FlowFacts
