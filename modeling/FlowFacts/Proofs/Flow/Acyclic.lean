import FlowFacts.Proofs.Flow.Facts
import FlowFacts.Proofs.Flow.Search

/-!
# Functions without loops

If no block leads back to itself, every edge goes forward in reverse post-order.  So all blocks
that are pending come behind those that were visited, and the first of them is always the next one
in the order: one of the blocks that branch to it was visited, and these come before it.  Each
block is visited once, whatever the model is.

## Main definitions

* `Program.Acyclic` — no block that can be reached leads back to itself.
* `Sweep.SortedFrom` — only blocks from a position on are pending, in ascending order.

## Main results

* `Task.lt_of_edge` — edges go forward.
* `Task.Course.next_in_order` — the next block in the order is visited next.
* `visits_once_of_acyclic` — the analysis makes one visit of each block.
-/

namespace FlowFacts

open Program

variable {task : Task} {start : Environment} {b c : BlockId} {i j k : Nat} {l : List Nat}
  {x : Moment} {t : FormulaTable} {events : Array Event} {edges : List (BlockId × Environment)}

/-! ### The order of blocks -/

/-- No block that can be reached from the entry of `f` leads back to itself. -/
def Program.Acyclic (p : Program) (f : FunctionId) : Prop :=
  ∀ b, p.Reaches (p.function f).entry b → ¬ Relation.TransGen p.Edge b b

/-- A function `f` has no loops if every edge from a block `b` that can be reached leads to a
block with a higher number. -/
theorem Program.acyclic_of_rising {p : Program} {f : FunctionId} (hbody : p.HasBody f)
    (h : ∀ b ∈ p.reversePostOrder f, ∀ target ∈ p.successors b, b.index < target.block.index) :
    p.Acyclic f := by
  -- the numbers rise along every path, by induction on its length
  have hrises : ∀ {b c}, p.Reaches (p.function f).entry b → Relation.TransGen p.Edge b c →
      b.index < c.index := by
    intro b c hb hc
    induction hc with
    | single hedge =>
      obtain ⟨target, htarget, rfl⟩ := hedge
      exact h b ((mem_reversePostOrder_iff hbody.closed).2 hb) target htarget
    | @tail c d hc hedge ih =>
      obtain ⟨target, htarget, rfl⟩ := hedge
      have hreached := (mem_reversePostOrder_iff hbody.closed).2 (hb.trans hc.to_reflTransGen)
      exact Nat.lt_trans ih (h c hreached target htarget)
  exact fun b hb hcycle => Nat.lt_irrefl _ (hrises hb hcycle)

/-- Edges go forward: an edge from `b` to a block `c` that does not come later closes a cycle. -/
theorem Task.lt_of_edge (hbody : task.program.HasBody task.function)
    (hacyclic : task.program.Acyclic task.function) (hi : task.order[i]? = some b)
    (hj : task.order[j]? = some c) (hedge : task.program.Edge b c) : i < j := by
  by_cases hc : c ∈ task.order.drop (i + 1)
  · obtain ⟨k, hk⟩ := List.getElem?_of_mem hc
    rw [List.getElem?_drop] at hk
    have := Task.position_unique hbody hj hk
    omega
  · -- an edge that goes back in the order has a way from its target to its source
    have hsplit := task.order_eq.symm.trans (eq_take_append_cons_drop hi)
    have hback : task.program.Reaches c b := reaches_of_edge_back hbody.closed hsplit hedge hc
    exact absurd (.head' hedge hback) (hacyclic b (Task.reached_of_position hbody hi))

/-! ### What is pending -/

theorem pairwise_insertPosition (h : l.Pairwise (· < ·)) (i : Nat) :
    (insertPosition i l).Pairwise (· < ·) := by
  induction l with
  | nil => exact List.pairwise_singleton _ _
  | cons j rest ih =>
    rw [List.pairwise_cons] at h
    rw [insertPosition]
    split
    · rename_i hij
      refine List.pairwise_cons.2 ⟨List.forall_mem_cons.2 ⟨hij, fun k hk => ?_⟩,
        List.pairwise_cons.2 h⟩
      exact Nat.lt_trans hij (h.1 k hk)
    · split
      · rename_i hji
        refine List.pairwise_cons.2 ⟨fun k hk => ?_, ih h.2⟩
        rcases mem_insertPosition.1 hk with rfl | hk
        · exact hji
        · exact h.1 k hk
      · exact List.pairwise_cons.2 h

theorem pairwise_lookAt (h : l.Pairwise (· < ·)) (task : Task)
    (edges : List (BlockId × Environment)) : (task.lookAt edges l).Pairwise (· < ·) := by
  unfold Task.lookAt
  generalize edges.filterMap (fun x => task.order.idxOf? x.1) = positions
  induction positions generalizing l with
  | nil => exact h
  | cons i positions ih => exact ih (pairwise_insertPosition h i)

/-- Only blocks from position `k` on are pending in `s`, in ascending order. -/
structure Sweep.SortedFrom (s : Sweep) (k : Nat) : Prop where
  /-- The positions are ascending. -/
  ascending : s.pending.Pairwise (· < ·)
  /-- None comes before. -/
  le : ∀ j ∈ s.pending, k ≤ j

/-- If position `k` itself is pending, it is the first of those pending. -/
theorem Sweep.SortedFrom.eq_cons {s : Sweep} (h : s.SortedFrom k) (hk : k ∈ s.pending) :
    ∃ rest, s.pending = k :: rest := by
  obtain ⟨hascending, hle⟩ := h
  cases hpending : s.pending with
  | nil => simp [hpending] at hk
  | cons j rest =>
    rw [hpending] at hk hle hascending
    rcases List.mem_cons.1 hk with rfl | hk
    · exact ⟨rest, rfl⟩
    · have hlt := (List.pairwise_cons.1 hascending).1 k hk
      have hjk := hle j List.mem_cons_self
      omega

/-! ### One visit after another -/

section

variable (hbody : task.program.HasBody task.function)
  (hacyclic : task.program.Acyclic task.function)

include hbody hacyclic

/-- When the blocks before position `k` were visited, the block `b` there is pending and is not
passed over. -/
theorem Task.Course.pending_next (h : task.Course events t start (task.order.take k) x)
    (hb : task.order[k]? = some b) (hnone : x.sweep.input? k = none) :
    k ∈ x.sweep.pending ∧ ¬ task.Idle x.sweep k := by
  have hexplored := h.explored hbody
  rcases Nat.eq_zero_or_pos k with rfl | hk
  · exact ⟨hexplored.entry hnone, fun hidle => (hidle b hb hnone).1 rfl⟩
  · -- the block is not the entry, so it can be reached by way of one that was visited
    obtain ⟨c, hc, hedge⟩ : ∃ c, task.Reached c ∧ task.program.Edge c b := by
      rcases Relation.ReflTransGen.cases_tail (Task.reached_of_position hbody hb) with heq | hedge
      · have := Task.position_unique hbody (heq ▸ hb) (Task.order_zero hbody)
        omega
      · exact hedge
    obtain ⟨i, hi⟩ := Task.exists_position hbody hc
    have hlt := Task.lt_of_edge hbody hacyclic hi hb hedge
    have hvisited : x.sweep.input? i ≠ none := by
      rw [Ne, (h.visitCount_eq hbody hi).2, not_not]
      refine List.mem_of_getElem? (i := i) ?_
      rw [List.getElem?_take_of_lt hlt, hi]
    exact ⟨hexplored.onward hi hvisited hedge hb hnone,
      hexplored.not_idle hbody.built hi hvisited hedge hb hnone⟩

/-- When the blocks before position `k` were visited, the one there is visited next, and only
blocks behind it are pending then. -/
theorem Task.Course.next_in_order (hlimit : 1 ≤ task.visitLimit)
    (h : task.Course events t start (task.order.take k) x) (hsorted : x.sweep.SortedFrom k)
    (hk : k < task.order.length) :
    ∃ y, task.Course events t start (task.order.take (k + 1)) y ∧
      y.sweep.SortedFrom (k + 1) := by
  obtain ⟨b, hb⟩ : ∃ b, task.order[k]? = some b := ⟨_, List.getElem?_eq_getElem hk⟩
  have hnew : b ∉ task.order.take k := by
    intro hmem
    obtain ⟨i, hi⟩ := List.getElem?_of_mem hmem
    rw [List.getElem?_take] at hi
    split at hi
    · have := Task.position_unique hbody hi hb
      omega
    · cases hi
  obtain ⟨hcount, hinput⟩ := h.visitCount_eq hbody hb
  obtain ⟨hmem, hidle⟩ := h.pending_next hbody hacyclic hb (hinput.2 hnew)
  obtain ⟨rest, hpending⟩ := hsorted.eq_cons hmem
  rcases hnext : task.nextVisit start x.sweep x.sweep.pending x.table with ⟨r, T⟩
  have hlooks := Task.looks_of_nextVisit hnext
  rw [hpending] at hlooks
  cases hlooks with
  | skip hskip _ => exact absurd hskip hidle
  | @due _ b' e _ hb' _ =>
    cases hb.symm.trans hb'
    -- the visit is the first one of this block, so it is allowed
    have hallowed : x.sweep.visitCount k < task.visitLimit := by
      rw [hcount, List.count_eq_zero_of_not_mem hnew]
      exact hlimit
    obtain ⟨edges, y, hmakes⟩ := Task.exists_makes hnext hallowed
    obtain ⟨t₀, hstart, hadvances⟩ := h
    refine ⟨y, ⟨t₀, hstart, ?_⟩, ?_⟩
    · rw [List.take_add_one, hb]
      exact hadvances.visit hmakes
    · have hascending := hsorted.ascending
      rw [hpending, List.pairwise_cons] at hascending
      rw [hmakes.sweep]
      refine ⟨pairwise_lookAt hascending.2 task edges, fun j hj => ?_⟩
      -- what is pending then is the target of an edge, which goes forward, or was pending before
      rcases Task.mem_lookAt.1 hj with ⟨x, hx, hxj⟩ | hj
      · have hedge := hmakes.mem_edges_iff.1 (List.mem_map_of_mem hx)
        have hxj : task.order[j]? = some x.1 := by
          obtain ⟨hlt, heq, -⟩ := List.idxOf?_eq_some_iff.1 hxj
          exact List.getElem?_eq_some_iff.2 ⟨hlt, heq⟩
        exact Task.lt_of_edge hbody hacyclic hb hxj hedge
      · exact hascending.1 j hj

/-- The blocks are visited in the order of the task, and then no visit is due. -/
theorem Task.exists_course_in_order (hlimit : 1 ≤ task.visitLimit) (events : Array Event)
    (t : FormulaTable) : ∃ start x T, task.Course events t start task.order x ∧
      task.nextVisit start x.sweep x.sweep.pending x.table = (none, T) := by
  rcases hstart : task.atStart t with ⟨start, t₀⟩
  -- by induction on the number `k` of blocks that were visited
  have hall : ∀ k, k ≤ task.order.length → ∃ x,
      task.Course events t start (task.order.take k) x ∧ x.sweep.SortedFrom k := by
    intro k
    induction k with
    | zero =>
      intro _
      exact ⟨_, ⟨t₀, hstart, .refl⟩, List.pairwise_singleton _ _, fun j _ => Nat.zero_le j⟩
    | succ k ih =>
      intro hk
      obtain ⟨x, hcourse, hsorted⟩ := ih (Nat.le_of_succ_le hk)
      exact hcourse.next_in_order hbody hacyclic hlimit hsorted hk
  obtain ⟨x, hcourse, hsorted⟩ := hall task.order.length (Nat.le_refl _)
  rw [List.take_length] at hcourse
  rcases hnext : task.nextVisit start x.sweep x.sweep.pending x.table with ⟨_ | v, T⟩
  · exact ⟨start, x, T, hcourse, hnext⟩
  · -- behind the last block there is none to visit
    obtain ⟨hblock, -, passed, hpending, -⟩ := (Task.looks_of_nextVisit hnext).some
    have hlt := (List.getElem?_eq_some_iff.1 hblock).1
    have hle := hsorted.le v.position (by simp [hpending])
    omega

end

/-- **One sweep is enough without loops.**  Take a program `p` that is accepted, a function `f`
with a body in which no block that can be reached leads back to itself, any model `m`, and any
`limit` that allows a visit.  The analysis has a result, and visits each block that can be
reached exactly once, in reverse post-order. -/
theorem visits_once_of_acyclic {text : String} {p : Program} {f : FunctionId}
    (hload : Source.load text = .ok p) (hf : f ∈ p.bodies) (hacyclic : p.Acyclic f) (m : Model)
    {limit : Nat} (hlimit : 1 ≤ limit) (events : Array Event) (t : FormulaTable) :
    ∃ result events' t' start last,
      (m.task p f limit).analyse events t = ((.ok result, events'), t') ∧
      (m.task p f limit).Course events t start (p.reversePostOrder f) last ∧
      (∀ b, p.Reaches (p.function f).entry b → (p.reversePostOrder f).count b = 1) ∧
      result.visits = (p.reversePostOrder f).length := by
  have hbody : (m.task p f limit).program.HasBody (m.task p f limit).function :=
    Source.hasBody_of_load hload hf
  have hdecl := isDeclaration_of_mem_bodies hf
  obtain ⟨start, last, T, hcourse, hover⟩ :=
    Task.exists_course_in_order hbody hacyclic hlimit events t
  refine ⟨_, _, _, start, last, hcourse.analyse_eq (.finished hover) hdecl, hcourse,
    fun b hb => ?_, hcourse.counted.2⟩
  exact List.count_eq_one_of_mem (nodup_reversePostOrder hbody.closed)
    ((mem_reversePostOrder_iff hbody.closed).2 hb)

/-- With one visit allowed for each block, the function whose last block is a target of both its
others is analysed in three visits. -/
theorem checking_visited_once :
    Source.load checkingText = .ok checkingProgram ∧ checkingProgram.Acyclic ⟨1⟩ ∧
    ∃ result events t start last,
      (checkingModel.model.task checkingProgram ⟨1⟩ 1).analyse #[] {} =
        ((.ok result, events), t) ∧
      (checkingModel.model.task checkingProgram ⟨1⟩ 1).Course #[] {} start [⟨1⟩, ⟨2⟩, ⟨3⟩]
        last ∧
      result.visits = 3 := by
  have hacyclic : checkingProgram.Acyclic ⟨1⟩ :=
    acyclic_of_rising (Source.hasBody_of_load load_checkingText (by decide)) (by decide)
  have horder : checkingProgram.reversePostOrder ⟨1⟩ = [⟨1⟩, ⟨2⟩, ⟨3⟩] := by decide
  obtain ⟨result, events, t, start, last, hresult, hcourse, -, hvisits⟩ :=
    visits_once_of_acyclic load_checkingText (f := ⟨1⟩) (by decide) hacyclic
      checkingModel.model (Nat.le_refl 1) #[] {}
  rw [horder] at hcourse hvisits
  exact ⟨load_checkingText, hacyclic, result, events, t, start, last, hresult, hcourse, hvisits⟩

end FlowFacts
