import FlowFacts.Proofs.Flow.Analysis

/-!
# What holds at every place

The environments that an analysis stores or notes all come about in one way: they start with
the arguments at the entry, pass one instruction after another, cross from the end of a block
to the start of the next, and are joined where edges meet.  So a property of places and
environments that is kept by each of these holds wherever an environment is stored.

## Main definitions

* `Crosses` — one target of a terminator is taken.
* `Task.Keeps` — a property of places and environments that every step keeps.

## Main results

* `Task.Keeps.sweepsTo` — such a property holds of the inputs and the edges of a search.
* `Task.Reached.exists_input`, `Analysed.exists_input` — every block that can be reached is visited.
* `Task.Keeps.noted`, `Task.Keeps.exists_point` — the property holds at the annotations.
-/

namespace FlowFacts

open FormulaTable Program

variable {T : FormulaTable} {p : Program} {R : Model.Rule} {task : Task}
  {start e e₁ e₂ e' : Environment} {s : Sweep} {b c : BlockId} {v : ValueId} {i k : Nat}
  {edges : List (BlockId × Environment)} {es : List Environment} {a : Analysis}

/-! ### Crossing to the next block -/

/-- From `e` at the end of `b` to the start of a block that its terminator leads to, by one of
the targets. -/
inductive Crosses (T : FormulaTable) (p : Program) (b : BlockId) (e : Environment) :
    BlockId → Environment → Prop
  /-- There is one target. -/
  | branch {target : Target} {e' : Environment} : p.terminator? b = some (.branch target) →
      Entered T p target e e' → Crosses T p b e target.block e'
  /-- The first of two targets is taken, so the condition holds. -/
  | whenTrue {cond : ValueId} {whenTrue whenFalse : Target} {f : Formula}
      {e₀ e₁ e' : Environment} :
      p.terminator? b = some (.condBranch cond whenTrue whenFalse) → Decided T p e cond f e₀ →
      Assumed T e₀ f e₁ → Entered T p whenTrue e₁ e' → Crosses T p b e whenTrue.block e'
  /-- The second is taken, so the condition does not hold. -/
  | whenFalse {cond : ValueId} {whenTrue whenFalse : Target} {f g : Formula}
      {e₀ e₁ e' : Environment} :
      p.terminator? b = some (.condBranch cond whenTrue whenFalse) → Decided T p e cond f e₀ →
      T.Means g (fun ρ => !T.holds ρ f) {a | T.Occurs a f} →
      Assumed T e₀ g e₁ → Entered T p whenFalse e₁ e' → Crosses T p b e whenFalse.block e'

/-- A target of the terminator of `b` is entered, from `e` or from where its condition is decided
and one of its outcomes assumed. -/
theorem Crosses.exists_entered (h : Crosses T p b e c e') :
    ∃ op target e₁, p.terminator? b = some op ∧ target ∈ op.targets ∧ target.block = c ∧
      (∀ w ∈ target.args, w ∈ op.operands) ∧ Entered T p target e₁ e' ∧
      (e₁ = e ∨ ∃ cond whenTrue whenFalse f g e₀, op = .condBranch cond whenTrue whenFalse ∧
        Decided T p e cond f e₀ ∧ Assumed T e₀ g e₁ ∧ ∀ a, T.Occurs a g → T.Occurs a f) := by
  cases h with
  | branch hterm hentered =>
    exact ⟨_, _, _, hterm, List.mem_singleton_self _, rfl, fun w hw => hw, hentered, .inl rfl⟩
  | whenTrue hterm hdecided hassumed hentered =>
    exact ⟨_, _, _, hterm, List.mem_cons_self, rfl, by simp +contextual [Operation.operands],
      hentered, .inr ⟨_, _, _, _, _, _, rfl, hdecided, hassumed, fun _ => id⟩⟩
  | whenFalse hterm hdecided hnot hassumed hentered =>
    exact ⟨_, _, _, hterm, List.mem_cons_of_mem _ (List.mem_singleton_self _), rfl,
      by simp +contextual [Operation.operands], hentered,
      .inr ⟨_, _, _, _, _, _, rfl, hdecided, hassumed, fun _ => hnot.occurs⟩⟩

/-- A terminator leads from `b` along its edges. -/
theorem Crosses.edge (h : Crosses T p b e c e') : p.Edge b c := by
  obtain ⟨op, target, -, hterm, htarget, hc, -⟩ := h.exists_entered
  exact ⟨target, mem_successors_iff.2 ⟨op, hterm, htarget⟩, hc⟩

/-- Both sides of a conditional branch at the end of `b` take one target. -/
theorem Forked.crosses {cond : ValueId} {whenTrue whenFalse : Target}
    (h : Forked T p e cond whenTrue whenFalse e₁ e₂)
    (hterm : p.terminator? b = some (.condBranch cond whenTrue whenFalse)) :
    Crosses T p b e whenTrue.block e₁ ∧ Crosses T p b e whenFalse.block e₂ := by
  obtain ⟨f, g, e₀, eT, eF, hdecided, hg, hT, hF, h₁, h₂⟩ := h
  exact ⟨.whenTrue hterm hdecided hT h₁, .whenFalse hterm hdecided hg hF h₂⟩

/-- At the end of an edge to `c`, one target was taken, or two that lead to one block are joined. -/
theorem LeadsOut.crosses (h : LeadsOut T p b e edges) (hmem : (c, e') ∈ edges) :
    Crosses T p b e c e' ∨
      ∃ e₁ e₂, Crosses T p b e c e₁ ∧ Crosses T p b e c e₂ ∧ Joined T e₁ e₂ e' := by
  cases h with
  | branch hterm hentered =>
    cases List.mem_singleton.1 hmem
    exact Or.inl (.branch hterm hentered)
  | condBranch hterm hne hforked =>
    rcases List.mem_cons.1 hmem with heq | hmem
    · cases heq
      exact Or.inl (hforked.crosses hterm).1
    · cases List.mem_singleton.1 hmem
      exact Or.inl (hforked.crosses hterm).2
  | same hterm hsame hforked hjoined =>
    cases List.mem_singleton.1 hmem
    obtain ⟨h₁, h₂⟩ := hforked.crosses hterm
    exact Or.inr ⟨_, _, h₁, hsame ▸ h₂, hjoined⟩
  | none _ => cases hmem

/-! ### Properties that are kept -/

/-- The block `b` of the function can be reached. -/
def Task.Reached (task : Task) (b : BlockId) : Prop :=
  task.program.Reaches (task.program.function task.function).entry b

theorem Task.reached_of_position (h : task.program.HasBody task.function)
    (hb : task.order[i]? = some b) : task.Reached b := by
  apply (mem_reversePostOrder_iff h.closed).1
  rw [← task.order_eq]
  exact List.mem_of_getElem? hb

/-- A property `At` of environments before the instruction at a position of a block, which all
the steps of an analysis keep. -/
structure Task.Keeps (task : Task) (R : Model.Rule) (T : FormulaTable) (start : Environment)
    (At : BlockId → Nat → Environment → Prop) : Prop where
  /-- It holds at the start. -/
  start : At (task.program.function task.function).entry 0 start
  /-- Instructions keep it. -/
  step : ∀ {b k v e e'}, task.Reached b → (task.program.block b).instructions[k]? = some v →
    Stepped R T task.program v e e' → At b k e → At b (k + 1) e'
  /-- Terminators keep it. -/
  cross : ∀ {b c e e'}, task.Reached b → Crosses T task.program b e c e' →
    At b (task.program.block b).instructions.length e → At c 0 e'
  /-- Meetings keep it. -/
  join : ∀ {c e₁ e₂ e'}, task.Reached c → Joined T e₁ e₂ e' → At c 0 e₁ → At c 0 e₂ → At c 0 e'

namespace Task.Keeps

variable {At : BlockId → Nat → Environment → Prop} (h : task.Keeps R T start At)

include h

/-- The property is kept by the instructions `vs` of a block, behind those that were `passed`
already. -/
theorem runsThrough_from {vs passed after : List ValueId} (hb : task.Reached b)
    (hlist : (task.program.block b).instructions = passed ++ (vs ++ after))
    (hrun : RunsThrough R T task.program vs e e') (he : At b passed.length e) :
    At b (passed ++ vs).length e' := by
  -- by induction on the instructions that are left; one more is passed each time
  induction hrun generalizing passed with
  | nil => simpa using he
  | @cons v vs e e₁ e' hstep _ ih =>
    have hv : (task.program.block b).instructions[passed.length]? = some v := by
      rw [hlist]
      simp
    have hnext := h.step hb hv hstep he
    have hrest := @ih (passed ++ [v]) (by simpa using hlist) (by simpa using hnext)
    simpa using hrest

/-- The property is kept by the instructions `before` of a block, from its start. -/
theorem runsThrough {before after : List ValueId} (hb : task.Reached b)
    (hlist : (task.program.block b).instructions = before ++ after)
    (hrun : RunsThrough R T task.program before e e') (he : At b 0 e) : At b before.length e' :=
  h.runsThrough_from hb (show _ = [] ++ (before ++ after) from hlist) hrun he

/-- The property holds at the ends of the edges that leave `b`. -/
theorem leavesBy (hb : task.Reached b) (he : At b 0 e) (hleft : LeavesBy R T task.program b e edges)
    {x : BlockId × Environment} (hx : x ∈ edges) : At x.1 0 x.2 := by
  obtain ⟨e₁, hrun, hout⟩ := hleft
  have hend := h.runsThrough hb (List.append_nil _).symm hrun he
  rcases hout.crosses hx with hcross | ⟨x₁, x₂, hcross₁, hcross₂, hjoined⟩
  · exact h.cross hb hcross hend
  · have hreach : task.Reached x.1 := hb.tail hcross₁.edge
    exact h.join hreach hjoined (h.cross hb hcross₁ hend) (h.cross hb hcross₂ hend)

theorem joinedTo (hc : task.Reached c) (hjoined : JoinedTo T e es e') (he : At c 0 e)
    (hes : ∀ x ∈ es, At c 0 x) : At c 0 e' := by
  induction hjoined with
  | nil => exact he
  | cons hjoin _ ih =>
    rw [List.forall_mem_cons] at hes
    exact ih (h.join hc hjoin he hes.1) hes.2

theorem joinedAll (hc : task.Reached c) (hjoined : JoinedAll T es (some e'))
    (hes : ∀ x ∈ es, At c 0 x) : At c 0 e' := by
  cases es with
  | nil => cases hjoined
  | cons x es =>
    obtain ⟨_, ⟨⟩, hjoined⟩ := hjoined
    rw [List.forall_mem_cons] at hes
    exact h.joinedTo hc hjoined hes.1 hes.2

/-- The property holds of what arrives at `b`. -/
theorem arrives (hbody : task.program.HasBody task.function) (hb : task.order[i]? = some b)
    (hedges : ∀ {j c x}, task.order[j]? = some c → x ∈ s.edgesFrom j → At x.1 0 x.2)
    (harrives : task.Arrives T start s i b (some e)) : At b 0 e := by
  unfold Task.Arrives at harrives
  split at harrives
  · rename_i hi
    subst hi
    rw [Task.order_zero hbody, Option.some.injEq] at hb
    cases harrives
    exact hb ▸ h.start
  · apply h.joinedAll (Task.reached_of_position hbody hb) harrives
    intro x hx
    obtain ⟨j, c, hc, -, hedge⟩ := mem_incoming_iff.1 hx
    exact hedges hc (mem_edgesFrom_of_edge? hedge)

end Task.Keeps

/-! ### Searches and their results -/

/-- The tables of a search have an entry for each block. -/
theorem SweepsTo.sizes (h : SweepsTo R task T start s) : s.inputs.size = task.order.length ∧
    s.edges.size = task.order.length ∧ s.visits.size = task.order.length := by
  induction h with
  | start => exact ⟨Array.size_replicate, Array.size_replicate, Array.size_replicate⟩
  | visit _ _ _ _ _ ih =>
    simp only [Sweep.visited, Array.size_setIfInBounds]
    exact ih
  | look _ ih => exact ih

/-- What is stored at the position `i` is stored for a block. -/
theorem SweepsTo.exists_block (h : SweepsTo R task T start s)
    (hi : s.input? i ≠ none ∨ s.edgesFrom i ≠ []) : ∃ b, task.order[i]? = some b := by
  obtain ⟨hinputs, hedges, -⟩ := h.sizes
  by_contra hnone
  have hle : task.order.length ≤ i := by
    rw [← List.getElem?_eq_none_iff, Option.eq_none_iff_forall_ne_some]
    exact fun b hb => hnone ⟨b, hb⟩
  rcases hi with hi | hi
  · exact hi (by simp [Sweep.input?, Array.getElem?_eq_none (by omega : s.inputs.size ≤ i)])
  · exact hi (by simp [Sweep.edgesFrom, Array.getElem?_eq_none (by omega : s.edges.size ≤ i)])

/-- The tables of a search after a visit of the block at `i`. -/
theorem SweepsTo.visited (h : SweepsTo R task T start s) (hb : task.order[i]? = some b)
    {pending : List Nat} (j : Nat) :
    (s.visited i e edges pending).input? j = (if j = i then some e else s.input? j) ∧
      (s.visited i e edges pending).edgesFrom j = (if j = i then edges else s.edgesFrom j) ∧
      (s.visited i e edges pending).visitCount j =
        if j = i then s.visitCount i + 1 else s.visitCount j := by
  obtain ⟨hinputs, hedges, hvisits⟩ := h.sizes
  have hlt : i < task.order.length := (List.getElem?_eq_some_iff.1 hb).1
  exact ⟨Sweep.input?_visited (by omega), Sweep.edgesFrom_visited (by omega),
    Sweep.visitCount_visited (by omega)⟩

/-- If something arrives, so does the join `r` of all that does. -/
theorem JoinedAll.exists_some {r : Option Environment} (h : JoinedAll T es r) (hes : e ∈ es) :
    ∃ e', r = some e' := by
  cases es with
  | nil => cases hes
  | cons x es =>
    obtain ⟨e', he', -⟩ := h
    exact ⟨e', he'⟩

/-- Every block that can be reached has been visited in `s`, if the entry has been visited and
visits went on along the edges from blocks that were. -/
theorem Task.Reached.exists_input (hb : task.Reached b)
    (hbody : task.program.HasBody task.function) (hentry : s.input? 0 ≠ none)
    (honward : ∀ {i j b c}, task.order[i]? = some b → s.input? i ≠ none →
      task.program.Edge b c → task.order[j]? = some c → s.input? j ≠ none) :
    ∃ i e, task.order[i]? = some b ∧ s.input? i = some e := by
  have hvisited : ∃ i, task.order[i]? = some b ∧ s.input? i ≠ none := by
    induction hb with
    | refl => exact ⟨0, Task.order_zero hbody, hentry⟩
    | tail hreach hedge ih =>
      obtain ⟨i, hi, hvisited⟩ := ih
      obtain ⟨j, hj⟩ := Task.exists_position hbody (hreach.tail hedge)
      exact ⟨j, hj, honward hi hvisited hedge hj⟩
  obtain ⟨i, hi, hne⟩ := hvisited
  obtain ⟨e, he⟩ := Option.ne_none_iff_exists'.1 hne
  exact ⟨i, e, hi, he⟩

/-- Every block `b` that can be reached has been visited: all blocks are settled in the end. -/
theorem Analysed.exists_input (ha : Analysed R task T start s a)
    (hbody : task.program.HasBody task.function) (hT : T.WellFormed) (hb : task.Reached b) :
    ∃ i e, task.order[i]? = some b ∧ s.input? i = some e := by
  refine hb.exists_input hbody ?_ fun {i j b c} hi hvisited hedge hj => ?_
  · -- what arrives at the entry is the start
    obtain ⟨r, harrives, hsame⟩ := ha.swept.settled (Task.order_zero hbody) List.not_mem_nil
    have hr : r = some start := by simpa [Task.Arrives] using harrives T hT (.refl T)
    obtain ⟨e, he, -⟩ := hsame start hr
    simp [he]
  · -- something leaves the block before, so something arrives
    obtain ⟨e, he⟩ := Option.ne_none_iff_exists'.1 hvisited
    obtain ⟨e₁, -, hout⟩ := ha.swept.left hi he T hT (.refl T)
    obtain ⟨e₂, he₂⟩ : ∃ e₂, s.edge? i c = some e₂ := by
      have hmem : c ∈ (s.edgesFrom i).map Prod.fst := hout.mem_map_fst_iff.2 hedge
      exact Option.isSome_iff_exists.1 (isSome_lookup_iff.2 hmem)
    have hj₀ : j ≠ 0 := by
      rintro rfl
      rw [Task.order_zero hbody, Option.some.injEq] at hj
      exact hbody.not_edge_entry (hj ▸ hedge)
    obtain ⟨r, harrives, hsame⟩ := ha.swept.settled hj List.not_mem_nil
    have hjoined : JoinedAll T (task.incoming s c) r := by
      simpa [Task.Arrives, hj₀] using harrives T hT (.refl T)
    obtain ⟨e', he'⟩ := hjoined.exists_some
      (mem_incoming_iff.2 ⟨i, b, hi, hbody.built.mem_preds_of_edge hedge, he₂⟩)
    obtain ⟨e₀, he₀, -⟩ := hsame e' he'
    simp [he₀]

namespace Task.Keeps

variable {At : BlockId → Nat → Environment → Prop} (h : task.Keeps R T start At)

include h

variable (hbody : task.program.HasBody task.function)

include hbody

/-- The property holds of the environments that a search stores. -/
theorem sweepsTo (hs : SweepsTo R task T start s) :
    (∀ {i b e}, task.order[i]? = some b → s.input? i = some e → At b 0 e) ∧
      ∀ {i b x}, task.order[i]? = some b → x ∈ s.edgesFrom i → At x.1 0 x.2 := by
  induction hs with
  | start => simp [Sweep.input?_start, Sweep.edgesFrom_start]
  | @visit s i b e edges pending hs hb harrives _ hleft ih =>
    have he : At b 0 e := h.arrives hbody hb ih.2 harrives
    constructor
    · -- inputs: the block that is visited has what arrives there
      intro j c e' hc he'
      rw [(hs.visited hb j).1] at he'
      split at he'
      · rename_i hj
        subst hj
        cases hb.symm.trans hc
        cases he'
        exact he
      · exact ih.1 hc he'
    · -- edges: those of the block that is visited are made of its input
      intro j c x hc hx
      rw [(hs.visited hb j).2.1] at hx
      split at hx
      · exact h.leavesBy (Task.reached_of_position hbody hb) he hleft hx
      · exact ih.2 hc hx
  | look _ ih => exact ih

/-- The property holds at the ends of the edges that lead to `b`. -/
theorem incoming (hs : SweepsTo R task T start s) (he : e ∈ task.incoming s b) : At b 0 e := by
  obtain ⟨i, c, hc, -, hedge⟩ := mem_incoming_iff.1 he
  exact (h.sweepsTo hbody hs).2 hc (mem_edgesFrom_of_edge? hedge)

/-- The property holds of an environment `e` that was noted, where the annotation `name` stands. -/
theorem noted (ha : Analysed R task T start s a) {name : String}
    (hname : a.points.lookup name = some e) :
    ∃ b before v after, task.Reached b ∧
      (task.program.block b).instructions = before ++ v :: after ∧
      task.program.operation? v = some (.annotate name) ∧ At b before.length e := by
  rcases ha.noted.origin hname with hnil |
    ⟨⟨b, i⟩, hi, e₀, he₀, before, v, after, hlist, hop, hrun⟩
  · cases hnil
  have hb : task.order[i]? = some b := List.mem_zipIdx_iff_getElem?.1 hi
  have hreach := Task.reached_of_position hbody hb
  have hstart := (h.sweepsTo hbody ha.sweepsTo).1 hb he₀
  exact ⟨b, before, v, after, hreach, hlist, hop, h.runsThrough hreach hlist hrun hstart⟩

/-- At every annotation `name` that can be reached, an environment is noted, and it has the
property. -/
theorem exists_point (hT : T.WellFormed) (ha : Analysed R task T start s a) {name : String}
    (hb : task.Reached b) (hv : (task.program.block b).instructions[k]? = some v)
    (hop : task.program.operation? v = some (.annotate name)) :
    ∃ e, a.points.lookup name = some e ∧ At b k e := by
  obtain ⟨i, e₀, hi, he₀⟩ := ha.exists_input hbody hT hb
  have hmem := List.mem_of_getElem? hv
  have hfound : (a.points.lookup name).isSome := ha.noted.found
    ⟨(b, i), List.mem_zipIdx_iff_getElem?.2 hi, by simp only [he₀, Option.isSome_some], v, hmem,
      hop⟩
  obtain ⟨e, he⟩ := Option.isSome_iff_exists.1 hfound
  obtain ⟨c, before, w, after, hc, hlist, hop', hAt⟩ := h.noted hbody ha he
  -- names are used once, so this is the annotation
  have hw : w ∈ (task.program.block c).instructions := by simp [hlist]
  have hwv : w = v := hbody.eq_of_point (hbody.mem_blocks_of_reaches hc)
    (hbody.mem_blocks_of_reaches hb) hw hmem hop' hop
  subst hwv
  cases hbody.built.block_unique hw hmem
  have hpos : k = before.length := by
    obtain ⟨hlt, -⟩ := List.getElem?_eq_some_iff.1 hv
    apply (List.getElem?_inj hlt (hbody.built.nodup_instructions b)).1
    rw [hv, hlist]
    simp
  exact ⟨e, he, hpos ▸ hAt⟩

end Task.Keeps

end FlowFacts
