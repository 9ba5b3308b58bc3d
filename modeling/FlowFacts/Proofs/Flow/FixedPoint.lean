import FlowFacts.Proofs.Flow.Convergence
import FlowFacts.Proofs.Flow.Search
import FlowFacts.Proofs.Source.Modular

/-!
# The end of a search is a fixed point

A search passes over a block if what arrives there is equivalent to what the block was last
visited with, and looks at it again only if an edge that leads there was stored anew.  So no change
is lost: when no visit is due, each block was visited with what its incoming edges say, and its
outgoing edges say what follows from that.

The join of some environments is not one environment.  Each time it is formed, it may be made of
other formulas, but these say the same (`JoinedAll.saysTheSame`).  So what arrived at a block when
it was looked at is equivalent to what arrives there at the end.

## Main definitions

* `Model.Lawful` — models that make their formulas in the table of the analysis.
* `Task.inputOf`, `Task.edgeOf` — what is stored for a block and for an edge.
* `Task.LastVisit` — the last visit of a block.

## Main results

* `Task.Course.exists_lastVisit` — what is stored was stored at the last visit.
* `Swept.exists_join` — what is stored for a block is equivalent to what arrives there.
* `search_fixed_point` — a search ends in a fixed point.
-/

namespace FlowFacts

open Program AnalysisM

variable {task : Task} {start e e' e₁ e₁' e₂ : Environment} {s : Sweep} {b c : BlockId} {i : Nat}
  {t T : FormulaTable} {events : Array Event} {bs : List BlockId} {x : Moment}
  {es : List Environment} {R : Model.Rule} {p : Program} {f : FunctionId}

/-! ### Joins that say the same -/

theorem JoinedTo.saysTheSame (h : JoinedTo T e₁ es e) (h' : JoinedTo T e₁' es e')
    (hsame : SaysTheSame T e₁ e₁') : SaysTheSame T e e' := by
  induction h generalizing e₁' with
  | nil => cases h'; exact hsame
  | cons hjoined _ ih =>
    cases h' with
    | cons hjoined' hrest' => exact ih hrest' (hjoined.saysTheSame hjoined' hsame)

/-- Two joins `e` and `e'` of the same environments `es` say the same. -/
theorem JoinedAll.saysTheSame (h : JoinedAll T es (some e)) (h' : JoinedAll T es (some e')) :
    SaysTheSame T e e' := by
  cases es with
  | nil => cases h
  | cons e₀ es =>
    obtain ⟨_, ⟨⟩, hjoined⟩ := h
    obtain ⟨_, ⟨⟩, hjoined'⟩ := h'
    exact hjoined.saysTheSame hjoined' (.refl T e₀)

/-! ### What is stored -/

namespace Task

/-- The environment that the block `b` was last visited with. -/
def inputOf (task : Task) (s : Sweep) (b : BlockId) : Option Environment :=
  (task.order.idxOf? b).bind s.input?

/-- The environment at the end of the edge from `b` to `c`. -/
def edgeOf (task : Task) (s : Sweep) (b c : BlockId) : Option Environment :=
  (task.order.idxOf? b).bind fun i => s.edge? i c

section

variable (hbody : task.program.HasBody task.function)

include hbody

theorem inputOf_eq (hb : task.order[i]? = some b) : task.inputOf s b = s.input? i := by
  rw [inputOf, idxOf?_order hbody hb, Option.bind_some]

theorem edgeOf_eq (hb : task.order[i]? = some b) : task.edgeOf s b c = s.edge? i c := by
  rw [edgeOf, idxOf?_order hbody hb, Option.bind_some]

/-- What arrives at `b` is what is stored for the edges from its predecessors, in the order of
these, if something is stored for all of them. -/
theorem map_edgeOf_eq (hedges : ∀ {i c}, task.order[i]? = some c →
    c ∈ (task.program.block b).preds → s.edge? i b ≠ none) :
    (task.order.filter (· ∈ (task.program.block b).preds)).map (task.edgeOf s · b) =
      (task.incoming s b).map some := by
  -- block by block, along a part `xs` of the order
  have hlist : ∀ xs : List (BlockId × Nat), xs ⊆ task.order.zipIdx →
      ((xs.map Prod.fst).filter (· ∈ (task.program.block b).preds)).map (task.edgeOf s · b) =
        (xs.filterMap fun x => if (task.program.block b).preds.contains x.1 then s.edge? x.2 b
          else none).map some := by
    intro xs hxs
    induction xs with
    | nil => rfl
    | cons x xs ih =>
      have hx : task.order[x.2]? = some x.1 :=
        List.mem_zipIdx_iff_getElem?.1 (hxs List.mem_cons_self)
      have hrest := ih fun y hy => hxs (List.mem_cons_of_mem x hy)
      by_cases hpred : x.1 ∈ (task.program.block b).preds
      · obtain ⟨e, he⟩ := Option.ne_none_iff_exists'.1 (hedges hx hpred)
        rw [List.map_cons, List.filter_cons_of_pos (by simpa using hpred), List.map_cons, hrest,
          edgeOf_eq hbody hx, List.filterMap_cons_some (b := e) (by simpa [hpred] using he),
          List.map_cons, he]
      · rw [List.map_cons, List.filter_cons_of_neg (by simpa using hpred), hrest,
          List.filterMap_cons_none (by simp [hpred])]
  have h := hlist task.order.zipIdx (List.Subset.refl _)
  rwa [List.zipIdx_map_fst] at h

end

/-! ### Last visits -/

/-- The visit `v` of a course, with the `edges` that it led to, after which its block is not
visited any more. -/
def LastVisit (task : Task) (events : Array Event) (t : FormulaTable) (start : Environment)
    (visits : List BlockId) (v : Visit) (edges : List (BlockId × Environment)) : Prop :=
  ∃ before after x y, visits = before ++ v.block :: after ∧ v.block ∉ after ∧
    task.Course events t start before x ∧ task.Makes start x v edges y

/-- **What is stored for a block was stored at its last visit.** -/
theorem Course.exists_lastVisit (h : task.Course events t start bs x)
    (hbody : task.program.HasBody task.function) (hb : task.order[i]? = some b)
    (hmem : b ∈ bs) :
    ∃ v edges, v.block = b ∧ task.LastVisit events t start bs v edges ∧
      x.sweep.input? i = some v.input ∧ x.sweep.edgesFrom i = edges := by
  obtain ⟨t₀, hstart, hadvances⟩ := h
  induction hadvances with
  | refl => cases hmem
  | @visit bs y z v edges hadvances hmakes ih =>
    obtain ⟨hinput, hedges, -⟩ := hmakes.visited (explored_start.advances hbody hadvances).sizes i
    by_cases hi : i = v.position
    · subst hi
      cases hb.symm.trans hmakes.block
      rw [if_pos rfl] at hinput hedges
      exact ⟨v, edges, rfl, ⟨bs, [], y, z, rfl, List.not_mem_nil, ⟨t₀, hstart, hadvances⟩, hmakes⟩,
        hinput, hedges⟩
    · -- another block was visited last, so the last visit of `b` is one of those before
      have hne : b ≠ v.block := by
        rintro rfl
        exact hi (Task.position_unique hbody hb hmakes.block)
      have hbefore : b ∈ bs := by
        rcases List.mem_append.1 hmem with hmem | hmem
        · exact hmem
        · exact absurd (List.mem_singleton.1 hmem) hne
      obtain ⟨w, edges', rfl, ⟨before, after, x, y', rfl, hafter, hcourse, hmakes'⟩, hw, hedges'⟩ :=
        ih hbefore
      rw [if_neg hi] at hinput hedges
      refine ⟨w, edges', rfl, ⟨before, after ++ [v.block], x, y', ?_, ?_, hcourse, hmakes'⟩,
        hinput.trans hw, hedges.trans hedges'⟩
      · rw [List.append_assoc, List.cons_append]
      · rw [List.mem_append, List.mem_singleton]
        exact fun hmem => hmem.elim hafter hne

end Task

/-! ### What arrives at the end -/

/-- The model `m` makes its formulas in the table of the analysis. -/
def Model.Lawful (m : Model) : Prop :=
  ∀ {t : FormulaTable} {e : Environment} (p : Program) (v : ValueId), t.WellFormed → e.Within t →
    LeadsTo (m.refine p v e) t fun e' t' => e'.Within t'

theorem CheckModel.lawful (m : CheckModel) : m.model.Lawful :=
  fun p v ht he => (m.obeys p v ht he).mono fun _ _ _ _ h => h.1

/-- A lawful model `m` follows the rule that says nothing. -/
theorem Model.Lawful.regular {m : Model} (hm : m.Lawful) (hbody : p.HasBody f) (limit : Nat) :
    (m.task p f limit).Regular fun _ _ _ _ _ => True where
  model p v ht he := (hm p v ht he).mono fun _ _ _ _ h => ⟨h, fun _ _ _ => True.intro⟩
  params := hbody.built.nodup_params
  order := nodup_reversePostOrder hbody.closed

/-- When no visit is due at `x`, all blocks are settled. -/
theorem Task.Course.swept (h : task.Course events t start bs x)
    (hover : task.nextVisit start x.sweep x.sweep.pending x.table = (none, T))
    (hreg : task.Regular R) (ht : t.WellFormed) :
    T.WellFormed ∧ Swept R task start T { x.sweep with pending := [] } [] := by
  obtain ⟨t₀, hstart, hsettle⟩ := h.settle_eq (.finished hover)
  obtain ⟨ht₀, -, hwithin, -⟩ := yields_atStart ht task
  rw [hstart] at ht₀ hwithin
  obtain ⟨hT, -, -, hswept⟩ := leadsTo_settle hreg ht₀ hwithin swept_start counted_start
    (fun _ _ _ => .start) events
  rw [hsettle] at hT hswept
  exact ⟨hT, (hswept _ rfl).1⟩

/-- What is stored for a block `b` that is settled is equivalent to what arrives there now. -/
theorem Swept.exists_join (h : Swept R task start T s []) (hT : T.WellFormed)
    (hb : task.order[i]? = some b) (hi : i ≠ 0) (hin : e ∈ task.incoming s b) :
    ∃ e e' T', s.input? i = some e ∧ Environment.joinAll (task.incoming s b) T = (some e', T') ∧
      (e.equivalent e' T').1 = true := by
  obtain ⟨r, harrives, hsame⟩ := h.settled hb List.not_mem_nil
  have hthen : T.Henceforth fun T => JoinedAll T (task.incoming s b) r := by
    intro T' hT' hg
    have hr := harrives T' hT' hg
    simp only [Task.Arrives, if_neg hi] at hr
    exact hr
  obtain ⟨hT', hg, hwithin, hnow⟩ := yields_joinAll hT fun e he => h.incoming_within he
  rcases hjoin : Environment.joinAll (task.incoming s b) T with ⟨r', T'⟩
  rw [hjoin] at hT' hg hwithin hnow
  obtain ⟨e₀, rfl⟩ := (hthen T hT (.refl T)).exists_some hin
  obtain ⟨e', rfl⟩ := (hnow T' hT' (.refl T')).exists_some hin
  obtain ⟨previous, hprevious, hbefore⟩ := hsame e₀ rfl
  refine ⟨previous, e', T', hprevious, rfl, ?_⟩
  -- both joins are of the same environments, also in the table that the question leads to
  obtain ⟨hT₁, hg₁, hanswer⟩ :=
    yields_equivalent hT' ((h.input_within hprevious).mono hg) (hwithin e' rfl)
  refine (hanswer _ hT₁ (.refl _)).2 ((hbefore _ hT₁ (hg.trans hg₁)).trans ?_)
  exact (hthen _ hT₁ (hg.trans hg₁)).saysTheSame (hnow _ hT₁ hg₁)

/-- The block `c` ends with its instruction that branches to `b`, so a predecessor has an edge. -/
theorem Program.Loaded.edge_of_mem_preds (hp : p.Loaded) (hbody : p.HasBody f)
    (hc : c ∈ (p.function f).blocks) (hpred : c ∈ (p.block b).preds) : p.Edge c b := by
  obtain ⟨v, hv, op, hop, target, htarget, rfl⟩ := hp.mem_preds_iff.1 hpred
  obtain ⟨before, last, op', hlist, hop', -, hterm, hbefore⟩ := hbody.exists_last hc
  have hends : op.isTerminator = true := by
    cases op with
    | branch | condBranch => rfl
    | annotate | not | binary | call | compare | nop | ret => cases htarget
  rw [hlist, List.mem_append, List.mem_singleton] at hv
  rcases hv with hv | rfl
  · have hnot := hbefore v hv
    rw [isTerminator, hop] at hnot
    simp [hends] at hnot
  · cases hop.symm.trans hop'
    exact ⟨target, by rw [successors, hterm]; exact htarget, rfl⟩

section

variable (hbody : task.program.HasBody task.function)
  (h : task.Course events t start bs x)
  (hover : task.nextVisit start x.sweep x.sweep.pending x.table = (none, T))

include hbody h hover

/-- At the end, the start is stored for the entry. -/
theorem Task.Course.inputOf_entry :
    task.inputOf x.sweep (task.program.function task.function).entry = some start := by
  have hzero := Task.order_zero hbody
  obtain ⟨e, he⟩ := h.exists_input hbody hover hzero
  rw [Task.inputOf_eq hbody hzero, he, (h.explored hbody).first he]

/-- At the end, an edge is stored from every predecessor `c` of `b` that can be reached. -/
theorem Task.Course.edge_ne_none (hp : task.program.Loaded) (hc : task.order[i]? = some c)
    (hpred : c ∈ (task.program.block b).preds) : x.sweep.edge? i b ≠ none := by
  have hedge : task.program.Edge c b := hp.edge_of_mem_preds hbody
    (hbody.mem_blocks_of_reaches (Task.reached_of_position hbody hc)) hpred
  obtain ⟨e, he⟩ := h.exists_input hbody hover hc
  obtain ⟨e', he'⟩ := (h.explored hbody).exits hc (by simp [he]) hedge
  simp [he']

/-- At the end, what is stored for `b` is equivalent to the join of what is stored for the edges
that lead there. -/
theorem Task.Course.exists_join (hp : task.program.Loaded) (hreg : task.Regular R)
    (ht : t.WellFormed) (hb : task.Reached b)
    (hne : b ≠ (task.program.function task.function).entry) :
    ∃ e es e' T', task.inputOf x.sweep b = some e ∧
      (task.order.filter (· ∈ (task.program.block b).preds)).map (task.edgeOf x.sweep · b) =
        es.map some ∧
      Environment.joinAll es T = (some e', T') ∧ (e.equivalent e' T').1 = true := by
  obtain ⟨i, hi⟩ := Task.exists_position hbody hb
  have hi₀ : i ≠ 0 := by
    rintro rfl
    exact hne (Option.some.inj (hi.symm.trans (Task.order_zero hbody)))
  -- the block is not the entry, so it can be reached along an edge, which is stored
  obtain ⟨e, he⟩ : ∃ e, e ∈ task.incoming x.sweep b := by
    rcases Relation.ReflTransGen.cases_tail hb with heq | ⟨c, hc, hedge⟩
    · exact absurd heq hne
    · obtain ⟨j, hj⟩ := Task.exists_position hbody hc
      have hpred := hbody.built.mem_preds_of_edge hedge
      obtain ⟨e, he⟩ := Option.ne_none_iff_exists'.1 (h.edge_ne_none hbody hover hp hj hpred)
      exact ⟨e, mem_incoming_iff.2 ⟨j, c, hj, hpred, he⟩⟩
  obtain ⟨hT, hswept⟩ := h.swept hover hreg ht
  obtain ⟨e₀, e', T', he₀, hjoin, hequivalent⟩ := hswept.exists_join hT hi hi₀ he
  exact ⟨e₀, _, e', T', (Task.inputOf_eq hbody hi).trans he₀,
    Task.map_edgeOf_eq hbody (h.edge_ne_none hbody hover hp), hjoin, hequivalent⟩

/-- At the end, every block `b` that can be reached was visited, and what is stored for it and
for its edges was stored at its last visit. -/
theorem Task.Course.stored (hb : task.Reached b) :
    ∃ v edges, v.block = b ∧ task.LastVisit events t start bs v edges ∧
      task.inputOf x.sweep b = some v.input ∧ ∀ c, task.edgeOf x.sweep b c = edges.lookup c := by
  obtain ⟨i, hi⟩ := Task.exists_position hbody hb
  obtain ⟨e, he⟩ := h.exists_input hbody hover hi
  have hmem : b ∈ bs := by
    by_contra hnot
    simp [(h.visitCount_eq hbody hi).2.2 hnot] at he
  obtain ⟨v, edges, hv, hlast, hinput, hfrom⟩ := h.exists_lastVisit hbody hi hmem
  refine ⟨v, edges, hv, hlast, (Task.inputOf_eq hbody hi).trans hinput, fun c => ?_⟩
  rw [Task.edgeOf_eq hbody hi, Sweep.edge?_eq, hfrom]

end

/-- **A search ends in a fixed point.**  Take a program `p` that is accepted, a function `f` with
a body, a lawful model `m` and a `limit` for which the analysis has a result.  At the end of its
search, the start is stored for the entry.  For every other block that can be reached, what is
stored is equivalent to the join of what is stored for the edges from its predecessors that can
be reached, in reverse post-order.  For its own edges, what is stored is what its instructions
and its terminator made, at its last visit, of what is stored for it. -/
theorem search_fixed_point {text : String} {p : Program} {f : FunctionId}
    (hload : Source.load text = .ok p) (hf : f ∈ p.bodies) {m : Model} (hm : m.Lawful)
    {limit : Nat} {events events' : Array Event} {t t' : FormulaTable} (ht : t.WellFormed)
    {result : Analysis}
    (hresult : (m.task p f limit).analyse events t = ((.ok result, events'), t')) :
    ∃ start visits last T, (m.task p f limit).Course events t start visits last ∧
      (m.task p f limit).nextVisit start last.sweep last.sweep.pending last.table = (none, T) ∧
      (m.task p f limit).inputOf last.sweep (p.function f).entry = some start ∧
      (∀ b, p.Reaches (p.function f).entry b → b ≠ (p.function f).entry →
        ∃ e es e' T', (m.task p f limit).inputOf last.sweep b = some e ∧
          ((p.reversePostOrder f).filter (· ∈ (p.block b).preds)).map
            ((m.task p f limit).edgeOf last.sweep · b) = es.map some ∧
          Environment.joinAll es T = (some e', T') ∧ (e.equivalent e' T').1 = true) ∧
      ∀ b, p.Reaches (p.function f).entry b → ∃ v edges, v.block = b ∧
        (m.task p f limit).LastVisit events t start visits v edges ∧
        (m.task p f limit).inputOf last.sweep b = some v.input ∧
        ∀ c, (m.task p f limit).edgeOf last.sweep b c = edges.lookup c := by
  have hbody : (m.task p f limit).program.HasBody (m.task p f limit).function :=
    Source.hasBody_of_load hload hf
  have hdecl := isDeclaration_of_mem_bodies hf
  obtain ⟨start, visits, last, T, hcourse, hover, -⟩ :=
    Task.exists_course_of_analyse hresult hdecl
  refine ⟨start, visits, last, T, hcourse, hover, hcourse.inputOf_entry hbody hover,
    fun b hb hne => ?_, fun b hb => hcourse.stored hbody hover hb⟩
  exact hcourse.exists_join hbody hover (Source.loaded_of_load hload) (hm.regular hbody limit) ht
    hb hne

/-- The search through the loop that negates a truth value ends in a fixed point. -/
theorem negating_fixed_point :
    ∃ start visits last T e es e' T',
      negatingTask.Course #[] {} start visits last ∧
      negatingTask.nextVisit start last.sweep last.sweep.pending last.table = (none, T) ∧
      negatingTask.inputOf last.sweep ⟨0⟩ = some start ∧
      negatingTask.inputOf last.sweep ⟨1⟩ = some e ∧
      [negatingTask.edgeOf last.sweep ⟨0⟩ ⟨1⟩, negatingTask.edgeOf last.sweep ⟨1⟩ ⟨1⟩] =
        es.map some ∧
      Environment.joinAll es T = (some e', T') ∧ (e.equivalent e' T').1 = true := by
  have hok : (negatingTask.analyse #[] {}).1.1.isOk = true := by decide +kernel
  rcases hresult : negatingTask.analyse #[] {} with ⟨⟨_ | result, events⟩, t⟩
  · rw [hresult] at hok
    cases hok
  · obtain ⟨start, visits, last, T, hcourse, hover, hstart, hjoins, -⟩ :=
      search_fixed_point load_negatingText (f := ⟨0⟩) (by decide) (CheckModel.lawful {})
        FormulaTable.wellFormed_empty hresult
    obtain ⟨e, es, e', T', he, hes, hjoin, hequivalent⟩ :=
      hjoins ⟨1⟩ (.single ⟨⟨⟨1⟩, [⟨0⟩]⟩, by decide, rfl⟩) (by decide)
    exact ⟨start, visits, last, T, e, es, e', T', hcourse, hover, hstart, he, hes, hjoin,
      hequivalent⟩

end FlowFacts
