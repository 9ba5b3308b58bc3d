import FlowFacts.Proofs.Flow.Shift

/-!
# Two analyses side by side

A search decides by what its environments say and by which blocks lead where.  So if two
tasks have the same blocks in the same order, up to their names, and each instruction does
the same in both, up to the numbers of values, then so do all visits, the search, and the
report in the end.

## Main definitions

* `Task.Mirrors` — two tasks that do the same step by step.

## Main results

* `Task.Mirrors.tracks_analyse` — then they have the same result.
* `Task.Mirrors.report_eq` — and the same report.
-/

namespace FlowFacts

variable {k n : Nat} {β : BlockId → BlockId} {task task' : Task} {α γ : Type}

/-! ### States moved -/

/-- The state `s` of a search with the numbers of the values moved by `k` and the blocks by `β`. -/
def Sweep.move (k : Nat) (β : BlockId → BlockId) (s : Sweep) : Sweep where
  inputs := s.inputs.map (Option.map (Environment.shift k))
  edges := s.edges.map (List.map fun x => (β x.1, x.2.shift k))
  visits := s.visits
  pending := s.pending

/-- The visit `v` with the numbers of the values moved by `k` and the block by `β`. -/
def Task.Visit.move (k : Nat) (β : BlockId → BlockId) (v : Task.Visit) : Task.Visit :=
  { v with block := β v.block, input := v.input.shift k }

/-- The environments of the annotations `points` with the numbers of the values moved by `k`. -/
def shiftPoints (k : Nat) (points : List (String × Environment)) : List (String × Environment) :=
  points.map fun x => (x.1, x.2.shift k)

/-- The result `a` of an analysis with the numbers of the values moved by `k`. -/
def Analysis.shift (k : Nat) (a : Analysis) : Analysis :=
  { a with points := shiftPoints k a.points }

@[simp] theorem Analysis.shift_zero : Analysis.shift 0 = id := by
  funext a
  simp [Analysis.shift, shiftPoints]

namespace Sweep

theorem input?_move (s : Sweep) (i : Nat) :
    (s.move k β).input? i = (s.input? i).map (Environment.shift k) := by
  simp only [Sweep.input?, Sweep.move, Array.getElem?_map]
  cases s.inputs[i]? <;> rfl

theorem edge?_move (hβ : Function.Injective β) (s : Sweep) (i : Nat) (b : BlockId) :
    (s.move k β).edge? i (β b) = (s.edge? i b).map (Environment.shift k) := by
  have hedges : (s.move k β).edges[i]?.getD [] =
      (s.edges[i]?.getD []).map fun x => (β x.1, x.2.shift k) := by
    rw [Sweep.move, Array.getElem?_map]
    cases s.edges[i]? <;> rfl
  rw [Sweep.edge?, Sweep.edge?, hedges, lookup_map_key hβ]

theorem visited_move (s : Sweep) (i : Nat) (input : Environment)
    (edges : List (BlockId × Environment)) (pending : List Nat) :
    (s.move k β).visited i (input.shift k) (edges.map fun x => (β x.1, x.2.shift k)) pending =
      (s.visited i input edges pending).move k β := by
  simp only [Sweep.visited, Sweep.move, Sweep.visitCount, Array.map_setIfInBounds, Option.map_some]

theorem visitCount_move (s : Sweep) (i : Nat) : (s.move k β).visitCount i = s.visitCount i := rfl

theorem start_move (n : Nat) : (Sweep.start n).move k β = .start n := by
  simp [Sweep.start, Sweep.move]

end Sweep

/-! ### Tasks -/

/-- The tasks `task` and `task'` do the same step by step, up to the numbers of values, which are
moved by `k`, and the names of blocks, which are changed by `β`. -/
structure Task.Mirrors (k : Nat) (β : BlockId → BlockId) (task task' : Task) : Prop where
  /-- Different blocks have different names. -/
  injective : Function.Injective β
  /-- The functions have the same name. -/
  name : task'.name = task.name
  /-- Both have a body, or none has. -/
  declaration : (task'.program.function task'.function).isDeclaration =
    (task.program.function task.function).isDeclaration
  /-- The arguments are the same. -/
  args : (task'.program.function task'.function).args =
    (task.program.function task.function).args.map fun x => (x.1, x.2.shift k)
  /-- The same arguments are truth values. -/
  isBool_arg : ∀ x ∈ (task.program.function task.function).args,
    task'.program.isBool (x.2.shift k) = task.program.isBool x.2
  /-- The limits are the same. -/
  visitLimit : task'.visitLimit = task.visitLimit
  /-- The blocks are visited in the same order. -/
  order : task'.order = task.order.map β
  /-- The blocks have the same labels. -/
  label : ∀ b ∈ task.order, (task'.program.block (β b)).label = (task.program.block b).label
  /-- Blocks know the same blocks to be branched to from. -/
  preds : ∀ b ∈ task.order, ∀ c ∈ task.order,
    β c ∈ (task'.program.block (β b)).preds ↔ c ∈ (task.program.block b).preds
  /-- The blocks have the same instructions. -/
  instructions : ∀ b ∈ task.order, (task'.program.block (β b)).instructions =
    (task.program.block b).instructions.map (ValueId.shift k)
  /-- The same instructions are annotations. -/
  annotation : ∀ b ∈ task.order, ∀ v ∈ (task.program.block b).instructions, ∀ name,
    task'.program.operation? (v.shift k) = some (.annotate name) ↔
      task.program.operation? v = some (.annotate name)
  /-- Each instruction does the same. -/
  step : ∀ b ∈ task.order, ∀ v ∈ (task.program.block b).instructions, ∀ e,
    Tracks k (Environment.shift k) (task.step e v) (task'.step (e.shift k) (v.shift k))
  /-- Each block is left in the same way. -/
  outgoing : ∀ b ∈ task.order, ∀ e, Follows k (List.map fun x => (β x.1, x.2.shift k))
    (outgoing task.program b e) (outgoing task'.program (β b) (e.shift k))

namespace Task.Mirrors

/-- The arguments that are truth values are the same for `task` and `task'`. -/
theorem boolArgs (h : task.Mirrors k β task') :
    ((task'.program.function task'.function).args.filter fun x => task'.program.isBool x.2) =
      ((task.program.function task.function).args.filter fun x => task.program.isBool x.2).map
        fun x => (x.1, x.2.shift k) := by
  rw [h.args, List.filter_map]
  congr 1
  exact List.filter_congr fun x hx => h.isBool_arg x hx

theorem follows_atStart (h : task.Mirrors k β task') :
    Follows k (Environment.shift k) task.atStart task'.atStart := by
  unfold Task.atStart
  rw [h.boolArgs]
  refine follows_unknown.bind fun e => Follows.foldlM ?_ e
  intro e x _
  exact (follows_renew e x.2).bind fun _ => follows_pure rfl

theorem incoming_move (h : task.Mirrors k β task') (s : Sweep) {b : BlockId}
    (hb : b ∈ task.order) : task'.incoming (s.move k β) (β b) =
      (task.incoming s b).map (Environment.shift k) := by
  rw [Task.incoming, Task.incoming, h.order, List.zipIdx_map, List.filterMap_map,
    List.map_filterMap]
  refine List.filterMap_congr fun x hx => ?_
  have hc : x.1 ∈ task.order := (List.mem_zipIdx' hx).2 ▸ List.getElem_mem _
  -- the same predecessors count, as only listed blocks are looked at
  have hpreds : (task'.program.block (β b)).preds.contains (β x.1) =
      (task.program.block b).preds.contains x.1 := by
    rw [Bool.eq_iff_iff, List.contains_iff_mem, List.contains_iff_mem]
    exact h.preds b hb x.1 hc
  rw [Function.comp_apply, Prod.map_fst, Prod.map_snd, hpreds, id_eq,
    Sweep.edge?_move h.injective]
  split <;> rfl

theorem follows_input (h : task.Mirrors k β task') (start : Environment) (s : Sweep) (i : Nat)
    {b : BlockId} (hb : b ∈ task.order) :
    Follows k (Option.map (Environment.shift k)) (task.input start s i b)
      (task'.input (start.shift k) (s.move k β) i (β b)) := by
  unfold Task.input
  rw [h.incoming_move s hb]
  split
  · exact follows_pure rfl
  · exact follows_joinAll _

theorem follows_nextVisit (h : task.Mirrors k β task') (start : Environment) (s : Sweep)
    (l : List Nat) : Follows k (Option.map (Task.Visit.move k β)) (task.nextVisit start s l)
      (task'.nextVisit (start.shift k) (s.move k β) l) := by
  induction l with
  | nil => exact follows_pure rfl
  | cons i rest ih =>
    rw [Task.nextVisit, Task.nextVisit, h.order, List.getElem?_map]
    cases hb : task.order[i]? with
    | none => exact ih
    | some b =>
      refine (h.follows_input start s i (List.mem_of_getElem? hb)).bind fun r => ?_
      cases r with
      | none => exact ih
      | some e =>
        rw [Sweep.input?_move]
        -- whether the visit is due is the same for both tasks, as equivalence is
        have hdecide : ∀ settled : Bool, Follows k (Option.map (Task.Visit.move k β))
            (if settled then task.nextVisit start s rest
              else return some { position := i, block := b, input := e, rest })
            (if settled then task'.nextVisit (start.shift k) (s.move k β) rest
              else return some { position := i, block := β b, input := e.shift k, rest }) := by
          intro settled
          cases settled
          · exact follows_pure rfl
          · exact ih
        cases s.input? i with
        | none => exact (follows_pure (g := id) rfl).bind hdecide
        | some previous => exact (follows_equivalent previous e).bind hdecide

end Task.Mirrors

/-- The visit `r` that is due, if there is one, is of a listed block. -/
def Task.Lists (task : Task) (r : Option Task.Visit) : Prop := ∀ v ∈ r, v.block ∈ task.order

theorem lists_bind {x : FormulaM α} {f : α → FormulaM (Option Task.Visit)}
    (h : ∀ a t, task.Lists (f a t).1) (t : FormulaTable) : task.Lists ((x >>= f) t).1 := h _ _

theorem lists_nextVisit (task : Task) (start : Environment) (s : Sweep) (l : List Nat)
    (t : FormulaTable) : task.Lists (task.nextVisit start s l t).1 := by
  induction l generalizing t with
  | nil => exact fun v hv => absurd hv (Option.not_mem_none v)
  | cons i rest ih =>
    rw [Task.nextVisit]
    cases hb : task.order[i]? with
    | none => exact ih t
    | some b =>
      have hdecide : ∀ (e : Environment) (settled : Bool) (t : FormulaTable),
          task.Lists ((if settled then task.nextVisit start s rest
            else return some { position := i, block := b, input := e, rest } :
              FormulaM (Option Task.Visit)) t).1 := by
        intro e settled t
        cases settled
        · rintro v ⟨⟩
          exact List.mem_of_getElem? hb
        · exact ih t
      refine lists_bind (fun r t => ?_) t
      cases r with
      | none => exact ih t
      | some e =>
        cases s.input? i with
        | none => exact hdecide e false t
        | some previous => exact lists_bind (hdecide e) t

namespace Task.Mirrors

theorem tracks_visit (h : task.Mirrors k β task') (s : Sweep) (v : Task.Visit)
    (hv : v.block ∈ task.order) : Tracks k (Sweep.move k β) (task.visit s v)
      (task'.visit (s.move k β) (v.move k β)) := by
  refine (tracks_report _ _).bind fun _ => ?_
  have hthrough : Tracks k (Environment.shift k) (task.through v.block v.input)
      (task'.through (β v.block) (v.input.shift k)) := by
    unfold Task.through
    rw [h.instructions _ hv]
    exact Tracks.foldlM (fun e w hw => h.step _ hv w hw e) v.input
  refine hthrough.bind fun e => (h.outgoing _ hv e).tracks.bind fun edges => tracks_pure ?_
  -- blocks are at the same positions of both orders, so the same ones are pending
  have hpositions : ((edges.map fun x => (β x.1, x.2.shift k)).filterMap fun x =>
      task'.order.idxOf? x.1) = edges.filterMap fun x => task.order.idxOf? x.1 := by
    rw [List.filterMap_map, h.order]
    refine List.filterMap_congr fun x _ => ?_
    rw [Function.comp_apply, List.idxOf?, List.idxOf?, List.findIdx?_map]
    congr 1
    funext c
    exact Bool.eq_iff_iff.2 (by simp [h.injective.eq_iff])
  rw [hpositions]
  exact s.visited_move _ _ _ _

theorem tracks_settle (h : task.Mirrors k β task') (start : Environment) (s : Sweep) :
    Tracks k (Except.map (Sweep.move k β)) (task.settle start n s)
      (task'.settle (start.shift k) n (s.move k β)) := by
  induction n generalizing s with
  | zero => exact tracks_pure rfl
  | succ n ih =>
    -- the tasks do the same only in listed blocks, and a visit that is due is in one
    refine (h.follows_nextVisit start s s.pending).bind_tracks
      (lists_nextVisit task start s s.pending) fun r hr => ?_
    cases r with
    | none => exact tracks_pure rfl
    | some v =>
      have hv : v.block ∈ task.order := hr v rfl
      dsimp only [Option.map_some, Task.Visit.move]
      rw [h.visitLimit, h.name, h.label _ hv, Sweep.visitCount_move]
      split
      · exact tracks_pure rfl
      · exact (h.tracks_visit s v hv).bind fun s' => ih s'

theorem note_shift (points : List (String × Environment)) (name : String) (e : Environment) :
    note (shiftPoints k points) name (e.shift k) = shiftPoints k (note points name e) := by
  have hany : (shiftPoints k points).any (·.1 == name) = points.any (·.1 == name) := by
    rw [shiftPoints, List.any_map]
    rfl
  unfold note
  rw [hany]
  split
  · rw [shiftPoints, shiftPoints, List.map_map, List.map_map]
    refine List.map_congr_left fun x _ => ?_
    rw [Function.comp_apply, Function.comp_apply]
    dsimp only
    split <;> rfl
  · simp [shiftPoints]

theorem tracks_noteStep (h : task.Mirrors k β task') {b : BlockId} (hb : b ∈ task.order)
    {v : ValueId} (hv : v ∈ (task.program.block b).instructions)
    (state : List (String × Environment) × Environment) :
    Tracks k (Prod.map (shiftPoints k) (Environment.shift k)) (task.noteStep state v)
      (task'.noteStep (Prod.map (shiftPoints k) (Environment.shift k) state) (v.shift k)) := by
  unfold Task.noteStep
  refine (h.step b hb v hv state.2).bind fun e => tracks_pure ?_
  refine congrArg (·, e.shift k) ?_
  by_cases hname : ∃ name, task.program.operation? v = some (.annotate name)
  · obtain ⟨name, hname⟩ := hname
    rw [hname, (h.annotation b hb v hv name).2 hname]
    exact note_shift state.1 name state.2
  · -- an instruction that is no annotation is none on the other side either
    have hnone : ∀ name, task.program.operation? v ≠ some (.annotate name) :=
      fun name hop => hname ⟨name, hop⟩
    have hnone' : ∀ name, task'.program.operation? (v.shift k) ≠ some (.annotate name) :=
      fun name hop => hnone name ((h.annotation b hb v hv name).1 hop)
    split
    · exact absurd ‹_› (hnone' _)
    · rfl

theorem tracks_noteBlock (h : task.Mirrors k β task') (s : Sweep)
    (points : List (String × Environment)) (x : BlockId × Nat) (hx : x.1 ∈ task.order) :
    Tracks k (shiftPoints k) (task.noteBlock s points x)
      (task'.noteBlock (s.move k β) (shiftPoints k points) (Prod.map β id x)) := by
  unfold Task.noteBlock
  rw [Prod.map_snd, id_eq, Sweep.input?_move]
  cases s.input? x.2 with
  | none => exact tracks_pure rfl
  | some e =>
    rw [Prod.map_fst, h.instructions _ hx]
    exact (Tracks.foldlM (fun state v hv => h.tracks_noteStep hx hv state) (points, e)).bind
      fun _ => tracks_pure rfl

/-- The results of `task` and `task'` are the same, up to the numbers of values. -/
theorem tracks_analyse (h : task.Mirrors k β task') :
    Tracks k (Except.map (Analysis.shift k)) task.analyse task'.analyse := by
  unfold Task.analyse
  rw [h.declaration, h.name, h.visitLimit, h.order, List.length_map, List.zipIdx_map]
  split
  · exact tracks_pure rfl
  · refine h.follows_atStart.tracks.bind fun start => ?_
    have hsettle := h.tracks_settle (n := task.visitLimit * task.order.length + 1) start
      (.start task.order.length)
    rw [Sweep.start_move] at hsettle
    refine hsettle.bind fun r => ?_
    cases r with
    | error e => exact tracks_pure rfl
    | ok s =>
      have hmem : ∀ x ∈ task.order.zipIdx, x.1 ∈ task.order := fun x hx =>
        (List.mem_zipIdx' hx).2 ▸ List.getElem_mem _
      refine (Tracks.foldlM (fun points x hx =>
        h.tracks_noteBlock s points x (hmem x hx)) []).bind fun points => ?_
      exact (tracks_report _ _).bind fun _ => tracks_pure rfl

theorem follows_annotationReports (h : task.Mirrors k β task')
    (points : List (String × Environment)) :
    Follows k id (annotationReports task.program task.function points)
      (annotationReports task'.program task'.function (shiftPoints k points)) := by
  have hfacts : ∀ e, Follows k id (argumentFacts task.program task.function e)
      (argumentFacts task'.program task'.function (e.shift k)) := by
    intro e
    unfold argumentFacts
    rw [h.boolArgs, ← List.map_id_fun]
    exact Follows.mapM fun x _ => (follows_argumentFormula e x.2).bind fun f =>
      (follows_truth e f).bind fun _ => follows_pure rfl
  unfold annotationReports shiftPoints
  rw [← List.map_id_fun]
  refine Follows.mapM fun x _ => (follows_feasible x.2).bind fun feasible => ?_
  cases feasible
  · exact follows_pure rfl
  · exact (hfacts x.2).bind fun _ => follows_pure rfl

theorem tracks_reportSteps (h : task.Mirrors k β task') :
    Tracks k id task.reportSteps task'.reportSteps := by
  unfold Task.reportSteps
  refine h.tracks_analyse.bind fun r => ?_
  rw [h.name]
  cases r with
  | error e => exact fun _ _ _ => ⟨rfl, rfl⟩
  | ok result =>
    refine (h.follows_annotationReports result.points).tracks.bind fun points => ?_
    exact fun _ _ _ => ⟨rfl, rfl⟩

/-- The reports of `task` and `task'` are the same. -/
theorem report_eq (h : task.Mirrors k β task') : task'.examine.report = task.examine.report :=
  (h.tracks_reportSteps #[] #[] {}).1

end Task.Mirrors

end FlowFacts
