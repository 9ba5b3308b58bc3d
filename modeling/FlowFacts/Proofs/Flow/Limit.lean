import FlowFacts.Proofs.Flow.Convergence
import FlowFacts.Proofs.Flow.Search

/-!
# The limit of visits

An analysis visits no block more often than its limit says, so it has an end.  If it has no
result, then a block was visited as often as allowed and what arrives there has changed once
more.  If it has a result, no visit was refused, so a higher limit makes no difference: the two
searches make the same visits step by step.

## Main definitions

* `Task.ChangesAgain` — one more visit of a block is due.

## Main results

* `Task.Course.raise` — the course of a search under a higher limit.
* `visits_limited` — the visits of an analysis, and what its limit decides.
-/

namespace FlowFacts

open Program

variable {m : Model} {p : Program} {f : FunctionId} {limit limit' : Nat} {start : Environment}
  {x y : Moment} {v : Task.Visit} {edges : List (BlockId × Environment)} {bs : List BlockId}
  {t : FormulaTable} {events : Array Event}

namespace Task

/-! ### A higher limit -/

theorem nextVisit_task (m : Model) (p : Program) (f : FunctionId) (limit limit' : Nat)
    (start : Environment) (s : Sweep) (l : List Nat) :
    (m.task p f limit).nextVisit start s l = (m.task p f limit').nextVisit start s l := by
  induction l with
  | nil => rfl
  | cons i rest ih =>
    rw [Task.nextVisit, Task.nextVisit, ih]
    rfl

/-- A visit `v` is allowed under a higher limit `limit'` too, and does the same. -/
theorem Makes.raise (h : (m.task p f limit).Makes start x v edges y) (hle : limit ≤ limit') :
    (m.task p f limit').Makes start x v edges y where
  allowed := Nat.lt_of_lt_of_le h.allowed hle
  left := by
    obtain ⟨t, hnext, hleave⟩ := h.left
    exact ⟨t, nextVisit_task m p f limit limit' start _ _ ▸ hnext, hleave⟩
  sweep := h.sweep

theorem Course.raise (h : (m.task p f limit).Course events t start bs x) (hle : limit ≤ limit') :
    (m.task p f limit').Course events t start bs x := by
  obtain ⟨t₀, hstart, hadvances⟩ := h
  refine ⟨t₀, hstart, ?_⟩
  induction hadvances with
  | refl => exact .refl
  | visit _ hmakes ih => exact ih.visit (hmakes.raise hle)

/-! ### The visits of an analysis -/

/-- The block of `v` was visited before, and what arrives there now is not equivalent to what it
was last visited with. -/
def ChangesAgain (task : Task) (start : Environment) (s : Sweep) (v : Visit) : Prop :=
  ∃ previous t t', s.input? v.position = some previous ∧
    task.input start s v.position v.block t = (some v.input, t') ∧
    (previous.equivalent v.input t').1 = false

theorem Changes.again {task : Task} {s : Sweep} (h : task.Changes start s v)
    (hv : s.input? v.position ≠ none) : task.ChangesAgain start s v := by
  obtain ⟨previous, hprevious⟩ := Option.ne_none_iff_exists'.1 hv
  obtain ⟨t, t', hin, hchanged⟩ := h
  exact ⟨previous, t, t', hprevious, hin, hchanged previous hprevious⟩

end Task

/-- **The limit of visits.**  Take a program `p` that is accepted, a function `f` with a body,
any model `m` and any `limit`.  The search of the analysis visits no block more often than the
limit says, and comes to an end.  Either no visit is due any more: then the analysis has a
result, with the number of the visits, and has the very same result under every higher limit,
with the same events and formulas.  Or a visit of a block is due that was visited as often as the
limit says: then the analysis fails and names this block, at which something has changed once
more, unless no visit is allowed at all. -/
theorem visits_limited {text : String} {p : Program} {f : FunctionId}
    (hload : Source.load text = .ok p) (hf : f ∈ p.bodies) (m : Model) (limit : Nat)
    (events : Array Event) (t : FormulaTable) :
    ∃ start visits last, (m.task p f limit).Course events t start visits last ∧
      (∀ b, visits.count b ≤ limit) ∧
      visits.length ≤ limit * (p.reversePostOrder f).length ∧
      ((∃ T result events' t',
          (m.task p f limit).nextVisit start last.sweep last.sweep.pending last.table =
            (none, T) ∧
          (m.task p f limit).analyse events t = ((.ok result, events'), t') ∧
          result.visits = visits.length ∧
          ∀ limit', limit ≤ limit' →
            (m.task p f limit').analyse events t = ((.ok result, events'), t')) ∨
        ∃ v T, (m.task p f limit).nextVisit start last.sweep last.sweep.pending last.table =
            (some v, T) ∧
          (m.task p f limit).analyse events t = ((.error (.visitLimit (p.function f).name
            (p.block v.block).label limit), last.events), T) ∧
          visits.count v.block = limit ∧
          (limit = 0 ∨ (m.task p f limit).ChangesAgain start last.sweep v)) := by
  have hbody : (m.task p f limit).program.HasBody (m.task p f limit).function :=
    Source.hasBody_of_load hload hf
  have hdecl := isDeclaration_of_mem_bodies hf
  obtain ⟨start, visits, last, r, T, hcourse, hends⟩ := (m.task p f limit).exists_course events t
  refine ⟨start, visits, last, hcourse, hcourse.count_le hbody, hcourse.length_le, ?_⟩
  have hanalyse := hcourse.analyse_eq hends hdecl
  cases hends with
  | finished hnext =>
    -- no visit was refused, so under a higher limit the course is the same and ends the same
    refine Or.inl ⟨T, _, _, _, hnext, hanalyse, hcourse.counted.2, fun limit' hle => ?_⟩
    have hover : (m.task p f limit').nextVisit start last.sweep last.sweep.pending last.table =
        (none, T) := Task.nextVisit_task m p f limit limit' start _ _ ▸ hnext
    exact (hcourse.raise hle).analyse_eq (.finished hover) hdecl
  | @refused v _ hnext hlimit =>
    obtain ⟨hblock, hchanges, -⟩ := (Task.looks_of_nextVisit hnext).some
    obtain ⟨hcount, hinput⟩ := hcourse.visitCount_eq hbody hblock
    -- the visit was refused, so the block has been visited as often as allowed
    have hfull : visits.count v.block = limit :=
      Nat.le_antisymm (hcourse.count_le hbody v.block) (hcount ▸ hlimit)
    refine Or.inr ⟨v, T, hnext, hanalyse, hfull, ?_⟩
    refine (Nat.eq_zero_or_pos limit).imp_right fun hpos => hchanges.again fun hnone => ?_
    rw [List.count_eq_zero_of_not_mem (hinput.1 hnone)] at hfull
    omega

/-- With one visit allowed for each block, the analysis of the loop that negates a truth value
fails.  The loop was visited once, and what arrives there has changed. -/
theorem negating_refused :
    ((Model.trivial.task negatingProgram ⟨0⟩ 1).analyse #[] {}).1.1 =
      .error (.visitLimit "f" "loop" 1) ∧
    ∃ start visits last v,
      (Model.trivial.task negatingProgram ⟨0⟩ 1).Course #[] {} start visits last ∧
      (negatingProgram.block v.block).label = "loop" ∧ visits.count v.block = 1 ∧
      (Model.trivial.task negatingProgram ⟨0⟩ 1).ChangesAgain start last.sweep v := by
  have hfails : ((Model.trivial.task negatingProgram ⟨0⟩ 1).analyse #[] {}).1.1 =
      .error (.visitLimit "f" "loop" 1) := by decide +kernel
  refine ⟨hfails, ?_⟩
  obtain ⟨start, visits, last, hcourse, -, -, hends⟩ :=
    visits_limited load_negatingText (f := ⟨0⟩) (by decide) .trivial 1 #[] {}
  rcases hends with ⟨_, _, _, _, -, hresult, -⟩ | ⟨v, _, -, hresult, hcount, hchanged⟩
  · rw [hresult] at hfails
    cases hfails
  · rw [hresult, Except.error.injEq, AnalysisError.visitLimit.injEq] at hfails
    exact ⟨start, visits, last, v, hcourse, hfails.2.1, hcount,
      hchanged.resolve_left Nat.one_ne_zero⟩

end FlowFacts
