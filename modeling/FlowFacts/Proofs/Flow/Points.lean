import FlowFacts.Proofs.Flow.Search
import FlowFacts.Proofs.Source.Resolve
import Mathlib.Data.List.Flatten

/-!
# The points of a result

When its search is over, an analysis runs through all blocks once more, each from what it was last
visited with, and notes the environments right before the annotations.  Names of annotations are
different in a function, so each note is a new one, at the end of those before.  Every block that
can be reached was visited, so none of its annotations is left out.

Nothing is assumed of the model.

## Main definitions

* `Task.rerun`, `Task.rerunTo` — running through blocks again, without notes.

## Main results

* `Task.foldlM_noteStep_eq`, `Task.foldlM_noteBlock_eq` — notes on instructions and on blocks.
* `points_in_order` — the points are the annotations of the blocks that can be reached, in order.
-/

namespace FlowFacts

open Program

variable {task : Task} {s : Sweep} {e e' : Environment} {name : String} {v : ValueId}
  {vs : List ValueId} {points : List (String × Environment)} {t t' : FormulaTable}
  {events events' : Array Event} {p : Program} {f : FunctionId}

/-! ### Names of annotations -/

theorem Program.mem_points_iff :
    name ∈ p.points vs ↔ ∃ v ∈ vs, p.operation? v = some (.annotate name) := by
  rw [Program.points, List.mem_filterMap]
  refine exists_congr fun v => and_congr_right fun _ => ?_
  rw [Option.bind_eq_some_iff]
  constructor
  · rintro ⟨op, hop, hpoint⟩
    cases op <;> cases hpoint
    exact hop
  · exact fun hop => ⟨_, hop, rfl⟩

/-- The names of the annotations of `f` in blocks that can be reached. -/
theorem Program.HasBody.mem_points_iff (hbody : p.HasBody f) :
    name ∈ p.points (p.instructionsOf (p.reversePostOrder f)) ↔
      ∃ b v, p.Reaches (p.function f).entry b ∧ v ∈ (p.block b).instructions ∧
        p.operation? v = some (.annotate name) := by
  simp only [Program.mem_points_iff, Program.instructionsOf, List.mem_flatMap,
    mem_reversePostOrder_iff hbody.closed]
  constructor
  · rintro ⟨v, ⟨b, hb, hv⟩, hop⟩
    exact ⟨b, v, hb, hv, hop⟩
  · rintro ⟨b, v, hb, hv, hop⟩
    exact ⟨v, ⟨b, hb, hv⟩, hop⟩

/-- The annotations of `f` have different names. -/
theorem Program.HasBody.nodup_points (hbody : p.HasBody f) :
    (p.points (p.instructionsOf (p.reversePostOrder f))).Nodup := by
  have hsub : p.reversePostOrder f ⊆ (p.function f).blocks := fun b hb =>
    hbody.mem_blocks_of_reaches ((mem_reversePostOrder_iff hbody.closed).1 hb)
  -- the blocks that can be reached are blocks of the function, in another order
  obtain ⟨blocks, hperm, hblocks⟩ :=
    (nodup_reversePostOrder hbody.closed).subperm hsub
  have hnodup : (p.points (p.instructionsOf blocks)).Nodup :=
    ((hblocks.flatMap _).filterMap _).nodup hbody.valid.points
  exact ((hperm.flatMap_right _).filterMap _).nodup_iff.1 hnodup

/-! ### Notes on the instructions of a block -/

namespace Task

theorem note_eq_append (h : name ∉ points.map Prod.fst) :
    note points name e = points ++ [(name, e)] := by
  refine if_neg fun hany => h ?_
  obtain ⟨x, hx, hname⟩ := List.any_eq_true.1 hany
  exact List.mem_map.2 ⟨x, hx, by simpa using hname⟩

/-- The name of a new annotation `v` is noted at the end. -/
theorem notedBefore_eq_append (h : (points.map Prod.fst ++ task.program.points [v]).Nodup) :
    task.notedBefore points e v =
      points ++ (task.program.points [v]).map fun name => (name, e) := by
  unfold notedBefore
  split
  · rename_i name hop
    have hpoints : task.program.points [v] = [name] := by
      simp [Program.points, hop, Operation.point?]
    rw [hpoints] at h ⊢
    refine note_eq_append fun hmem => ?_
    exact List.disjoint_of_nodup_append h hmem (List.mem_singleton_self name)
  · rename_i hop
    have hpoints : task.program.points [v] = [] := by
      refine List.eq_nil_iff_forall_not_mem.2 fun name hmem => ?_
      obtain ⟨w, hw, hname⟩ := mem_points_iff.1 hmem
      exact hop name (List.mem_singleton.1 hw ▸ hname)
    rw [hpoints, List.map_nil, List.append_nil]

/-- To note the annotations among `vs` does not change what the instructions do.  The notes come
behind the `points` before, in the order of the instructions, each with the environment before
its instruction. -/
theorem foldlM_noteStep_eq (hrun : vs.foldlM task.step e events t = ((e', events'), t'))
    (hnodup : (points.map Prod.fst ++ task.program.points vs).Nodup) :
    ∃ new, vs.foldlM task.noteStep (points, e) events t = (((points ++ new, e'), events'), t') ∧
      new.map Prod.fst = task.program.points vs ∧
      ∀ before v after name, vs = before ++ v :: after →
        task.program.operation? v = some (.annotate name) →
        (name, (before.foldlM task.step e events t).1.1) ∈ new := by
  induction vs generalizing points e events t with
  | nil =>
    cases hrun
    exact ⟨[], by rw [List.append_nil]; rfl, rfl, by simp⟩
  | cons v vs ih =>
    rcases hstep : task.step e v events t with ⟨⟨e₁, events₁⟩, t₁⟩
    rw [List.foldlM_cons, AnalysisM.bind_eq hstep] at hrun
    have hcons : task.program.points (v :: vs) =
        task.program.points [v] ++ task.program.points vs := points_append [v] vs
    rw [hcons, ← List.append_assoc] at hnodup
    have hhere := notedBefore_eq_append (e := e) (List.nodup_append.1 hnodup).1
    have hnote : task.noteStep (points, e) v events t =
        (((task.notedBefore points e v, e₁), events₁), t₁) :=
      AnalysisM.bind_eq hstep
    have hnodup' : ((task.notedBefore points e v).map Prod.fst ++
        task.program.points vs).Nodup := by
      rw [hhere, List.map_append, List.map_map]
      exact (List.map_id _).symm ▸ hnodup
    -- the first instruction is noted behind `points`, and the others behind that
    obtain ⟨new, hnew, hnames, hbefore⟩ := ih hrun hnodup'
    refine ⟨(task.program.points [v]).map (fun name => (name, e)) ++ new, ?_, ?_, ?_⟩
    · rw [List.foldlM_cons, AnalysisM.bind_eq hnote, hnew, hhere, List.append_assoc]
    · rw [List.map_append, hnames, List.map_map, hcons]
      exact congrArg (· ++ _) (List.map_id _)
    · -- the annotation is the first instruction or one of the others
      rintro (_ | ⟨w, before⟩) w' after name hsplit hop
      · cases hsplit
        exact List.mem_append_left _ (List.mem_map.2
          ⟨name, mem_points_iff.2 ⟨_, List.mem_singleton_self _, hop⟩, rfl⟩)
      · cases hsplit
        rw [List.foldlM_cons, AnalysisM.bind_eq hstep]
        exact List.mem_append_right _ (hbefore before w' after name rfl hop)

/-! ### Notes on blocks -/

/-- The blocks `xs` are run through again, each from what it was last visited with. -/
def rerun (task : Task) (s : Sweep) : List (BlockId × Nat) → AnalysisM Unit
  | [] => return ()
  | x :: xs => do
      if let some e := s.input? x.2 then
        let _ ← task.through x.1 e
      task.rerun s xs

/-- The blocks `xs` are run through again, and then the instructions `before` of another one,
from `e`. -/
def rerunTo (task : Task) (s : Sweep) (xs : List (BlockId × Nat)) (e : Environment)
    (before : List ValueId) : AnalysisM Environment := do
  task.rerun s xs
  before.foldlM task.step e

variable {x : BlockId × Nat} {xs : List (BlockId × Nat)}

theorem rerun_cons_bind {α : Type} (hx : s.input? x.2 = some e)
    (hrun : task.through x.1 e events t = ((e', events'), t')) (next : AnalysisM α) :
    (do task.rerun s (x :: xs); next) events t = (do task.rerun s xs; next) events' t' := by
  rw [rerun, hx, bind_assoc]
  exact AnalysisM.bind_eq hrun

/-- The notes on blocks `xs` that were visited come behind the `points` before, in the order of
the blocks, each with the environment before its instruction. -/
theorem foldlM_noteBlock_eq (task : Task) (hvisited : ∀ x ∈ xs, s.input? x.2 ≠ none)
    (hnodup : (points.map Prod.fst ++
      task.program.points (task.program.instructionsOf (xs.map Prod.fst))).Nodup)
    (events : Array Event) (t : FormulaTable) :
    ∃ new, (xs.foldlM (task.noteBlock s) points events t).1.1 = points ++ new ∧
      new.map Prod.fst = task.program.points (task.program.instructionsOf (xs.map Prod.fst)) ∧
      ∀ passed x rest e before v after name, xs = passed ++ x :: rest →
        s.input? x.2 = some e → (task.program.block x.1).instructions = before ++ v :: after →
        task.program.operation? v = some (.annotate name) →
        (name, (task.rerunTo s passed e before events t).1.1) ∈ new := by
  induction xs generalizing points events t with
  | nil => exact ⟨[], by rw [List.append_nil]; rfl, rfl, by simp⟩
  | cons x xs ih =>
    rw [List.forall_mem_cons] at hvisited
    obtain ⟨e, he⟩ := Option.ne_none_iff_exists'.1 hvisited.1
    rcases hrun : task.through x.1 e events t with ⟨⟨e', events'⟩, t'⟩
    have hcons : task.program.points (task.program.instructionsOf ((x :: xs).map Prod.fst)) =
        task.program.points (task.program.block x.1).instructions ++
          task.program.points (task.program.instructionsOf (xs.map Prod.fst)) :=
      points_append _ _
    rw [hcons, ← List.append_assoc] at hnodup
    obtain ⟨here, hhere, hnames, hbefore⟩ :=
      foldlM_noteStep_eq hrun (List.nodup_append.1 hnodup).1
    have hnote : task.noteBlock s points x events t = ((points ++ here, events'), t') := by
      rw [noteBlock, he]
      exact AnalysisM.bind_eq hhere
    have hnodup' : ((points ++ here).map Prod.fst ++
        task.program.points (task.program.instructionsOf (xs.map Prod.fst))).Nodup := by
      rwa [List.map_append, hnames]
    obtain ⟨new, hnew, hrest, hpassed⟩ := ih hvisited.2 hnodup' events' t'
    refine ⟨here ++ new, ?_, ?_, ?_⟩
    · rw [List.foldlM_cons, AnalysisM.bind_eq hnote, hnew, List.append_assoc]
    · rw [List.map_append, hnames, hrest, hcons]
    · -- the annotation is in the first block or in one of the others
      rintro (_ | ⟨y, passed⟩) x' rest e₀ before v after name hsplit he₀ hinstructions hop
      · cases hsplit
        cases he.symm.trans he₀
        exact List.mem_append_left _ (hbefore before v after name hinstructions hop)
      · cases hsplit
        rw [rerunTo, rerun_cons_bind he hrun]
        exact List.mem_append_right _
          (hpassed passed x' rest e₀ before v after name rfl he₀ hinstructions hop)

end Task

/-! ### The points of an analysis -/

/-- **Every annotation is reported once and in order.**  Take a program `p` that is accepted, a
function `f` with a body, any model `m` and any `limit` for which the analysis has a result.  The
points of the result are the annotations of the blocks that can be reached, whether or not they
can be satisfied: each once, in the order of the blocks and then in that of the instructions.
The environment of a point is the one before its instruction, when at the end of the search all
blocks are run through from what they were last visited with. -/
theorem points_in_order {text : String} {p : Program} {f : FunctionId}
    (hload : Source.load text = .ok p) (hf : f ∈ p.bodies) (m : Model) {limit : Nat}
    {events events' : Array Event} {t t' : FormulaTable} {result : Analysis}
    (hresult : (m.task p f limit).analyse events t = ((.ok result, events'), t')) :
    result.points.map Prod.fst = p.points (p.instructionsOf (p.reversePostOrder f)) ∧
    (result.points.map Prod.fst).Nodup ∧
    (∀ name, name ∈ result.points.map Prod.fst ↔
      ∃ b v, p.Reaches (p.function f).entry b ∧ v ∈ (p.block b).instructions ∧
        p.operation? v = some (.annotate name)) ∧
    ∃ start visits last T, (m.task p f limit).Course events t start visits last ∧
      (m.task p f limit).nextVisit start last.sweep last.sweep.pending last.table = (none, T) ∧
      ∀ i b before v after name, (p.reversePostOrder f)[i]? = some b →
        (p.block b).instructions = before ++ v :: after →
        p.operation? v = some (.annotate name) →
        ∃ e, last.sweep.input? i = some e ∧ result.points.lookup name =
          some ((m.task p f limit).rerunTo last.sweep ((p.reversePostOrder f).zipIdx.take i) e
            before last.events T).1.1 := by
  have hbody : (m.task p f limit).program.HasBody (m.task p f limit).function :=
    Source.hasBody_of_load hload hf
  have hdecl := isDeclaration_of_mem_bodies hf
  obtain ⟨start, visits, last, T, hcourse, hover, hconclude⟩ :=
    Task.exists_course_of_analyse hresult hdecl
  -- at the end of a search every listed block was visited
  have hvisited : ∀ x ∈ (p.reversePostOrder f).zipIdx, last.sweep.input? x.2 ≠ none := by
    intro x hx
    obtain ⟨e, he⟩ := hcourse.exists_input hbody hover (List.mem_zipIdx_iff_getElem?.1 hx)
    rw [he]
    exact Option.some_ne_none e
  have hnodup := hbody.nodup_points
  have hnodup' : (([] : List (String × Environment)).map Prod.fst ++ p.points
      (p.instructionsOf ((p.reversePostOrder f).zipIdx.map Prod.fst))).Nodup := by
    rwa [List.zipIdx_map_fst]
  obtain ⟨new, hnew, hnames, hpoints⟩ :=
    (m.task p f limit).foldlM_noteBlock_eq hvisited hnodup' last.events T
  have hresult : result.points = new := by
    have hok := congrArg (fun r => r.1.1) hconclude
    cases hok
    exact hnew
  rw [List.zipIdx_map_fst] at hnames
  rw [hresult, hnames]
  refine ⟨rfl, hnodup, fun name => hbody.mem_points_iff, start, visits, last, T, hcourse, hover,
    fun i b before v after name hi hinstructions hop => ?_⟩
  have hx : (p.reversePostOrder f).zipIdx[i]? = some (b, i) := by
    rw [List.getElem?_zipIdx, hi, Option.map_some, Nat.zero_add]
  obtain ⟨e, he⟩ := Option.ne_none_iff_exists'.1 (hvisited _ (List.mem_of_getElem? hx))
  -- names are noted once, so the note found for a name is the only one
  refine ⟨e, he, (lookup_eq_some_iff_mem (hnames ▸ hnodup)).2 ?_⟩
  exact hpoints _ (b, i) _ e before v after name (eq_take_append_cons_drop hx) he hinstructions
    hop

/-- Five annotations: two of them in a block that is never entered, and one in a block that no
branch leads to. -/
def markingText : String :=
  "module \x7b fn f(a: bool) -> bool \x7b
    entry(): annotate p cbr a, left(), done()
    left(): cbr a, done(), never()
    done(): annotate q ret bool a
    never(): annotate r annotate s br done()
    lost(): annotate t ret bool a
  \x7d \x7d"

/-- Its program. -/
def markingProgram : Program where
  modules := #[[⟨0⟩]]
  functions := #[
    { path := ["f"], args := [("a", ⟨0⟩)], returnType := .bool, entry := ⟨0⟩,
      others := [⟨1⟩, ⟨2⟩, ⟨3⟩, ⟨4⟩], isDeclaration := false }]
  blocks := #[
    { label := "entry", function := ⟨0⟩, params := [⟨0⟩], instructions := [⟨1⟩, ⟨2⟩] },
    { label := "left", function := ⟨0⟩, instructions := [⟨3⟩], preds := [⟨0⟩] },
    { label := "done", function := ⟨0⟩, instructions := [⟨4⟩, ⟨5⟩],
      preds := [⟨0⟩, ⟨1⟩, ⟨3⟩] },
    { label := "never", function := ⟨0⟩, instructions := [⟨6⟩, ⟨7⟩, ⟨8⟩], preds := [⟨1⟩] },
    { label := "lost", function := ⟨0⟩, instructions := [⟨9⟩, ⟨10⟩] }]
  values := #[.parameter ⟨0⟩ 0 .bool, .instruction ⟨0⟩ (.annotate "p"),
    .instruction ⟨0⟩ (.condBranch ⟨0⟩ ⟨⟨1⟩, []⟩ ⟨⟨2⟩, []⟩),
    .instruction ⟨1⟩ (.condBranch ⟨0⟩ ⟨⟨2⟩, []⟩ ⟨⟨3⟩, []⟩),
    .instruction ⟨2⟩ (.annotate "q"), .instruction ⟨2⟩ (.ret ⟨0⟩ .bool),
    .instruction ⟨3⟩ (.annotate "r"), .instruction ⟨3⟩ (.annotate "s"),
    .instruction ⟨3⟩ (.branch ⟨⟨2⟩, []⟩), .instruction ⟨4⟩ (.annotate "t"),
    .instruction ⟨4⟩ (.ret ⟨0⟩ .bool)]

theorem load_markingText : Source.load markingText = .ok markingProgram := by decide +kernel

/-- All but the last are reported, in the order of visits. -/
theorem marking_points :
    Source.load markingText = .ok markingProgram ∧
    ∃ result events t, (Model.trivial.task markingProgram ⟨0⟩ 1).analyse #[] {} =
        ((.ok result, events), t) ∧
      result.points.map Prod.fst = ["p", "r", "s", "q"] := by
  have hok : ((Model.trivial.task markingProgram ⟨0⟩ 1).analyse #[] {}).1.1.isOk = true := by
    decide +kernel
  rcases hresult : (Model.trivial.task markingProgram ⟨0⟩ 1).analyse #[] {} with
    ⟨⟨_ | result, events⟩, t⟩
  · rw [hresult] at hok
    cases hok
  · refine ⟨load_markingText, result, events, t, rfl, ?_⟩
    rw [(points_in_order load_markingText (by decide) .trivial hresult).1]
    decide

end FlowFacts
