import FlowFacts.Check.Report
import FlowFacts.Proofs.Flow.Invariant

/-!
# The course of a search

A search looks through the blocks that are pending, visits the first one at which something
changed, and goes on from there.  How long it may go on is not said here: a course is any number
of visits, one after another, each with exactly what it computed.  It has an end, since every
visit counts for its block and the visits of a block are limited, and the steps that an analysis
allows its search are enough to get there.

Nothing is assumed of the model.

## Main definitions

* `Moment` — where a search stands.
* `Task.Makes`, `Task.Advances` — one visit, and visits one after another.
* `Task.Ends` — how a search ends.
* `Task.Course` — the visits that an analysis makes.
* `Explored` — what every visit preserves.

## Main results

* `Task.exists_ends` — every search ends.
* `Task.Course.analyse_eq` — the analysis is concluded from where its search ended.
* `Explored.exists_input` — every block that can be reached is visited.
-/

namespace FlowFacts

open Program

variable {task : Task} {start e : Environment} {s : Sweep} {b c : BlockId} {i j n : Nat}
  {t T : FormulaTable} {events : Array Event} {edges : List (BlockId × Environment)} {l : List Nat}

/-! ### Steps one after another -/

section

variable {α β : Type} {a : α} {t' : FormulaTable} {events' : Array Event}

theorem FormulaM.bind_eq {x : FormulaM α} {f : α → FormulaM β} (h : x t = (a, t')) :
    (x >>= f) t = f a t' := by
  change f (x t).1 (x t).2 = f a t'
  rw [h]

theorem AnalysisM.bind_eq {x : AnalysisM α} {f : α → AnalysisM β}
    (h : x events t = ((a, events'), t')) : (x >>= f) events t = f a events' t' := by
  change f (x events t).1.1 (x events t).1.2 (x events t).2 = f a events' t'
  rw [h]

theorem AnalysisM.lift_bind_eq {x : FormulaM α} {f : α → AnalysisM β} (h : x t = (a, t')) :
    ((liftM x : AnalysisM α) >>= f) events t = f a events t' := by
  change f (x t).1 events (x t).2 = f a events t'
  rw [h]

end

/-! ### Looking for a visit -/

namespace Task

/-- The position `i` is passed over although its block was not visited: nothing arrives there. -/
def Idle (task : Task) (s : Sweep) (i : Nat) : Prop :=
  ∀ b, task.order[i]? = some b → s.input? i = none → i ≠ 0 ∧ task.incoming s b = []

/-- When the block of `v` was looked at, this arrived there, and it is not equivalent to what the
block was last visited with. -/
def Changes (task : Task) (start : Environment) (s : Sweep) (v : Visit) : Prop :=
  ∃ t t', task.input start s v.position v.block t = (some v.input, t') ∧
    ∀ previous, s.input? v.position = some previous → (previous.equivalent v.input t').1 = false

/-- Positions are passed over in the state `s`, up to one at which something changed. -/
inductive Looks (task : Task) (start : Environment) (s : Sweep) : List Nat → Option Visit → Prop
  /-- There is no position left. -/
  | nil : Looks task start s [] none
  /-- A position is passed over. -/
  | skip {i : Nat} {rest : List Nat} {r : Option Visit} : task.Idle s i →
      Looks task start s rest r → Looks task start s (i :: rest) r
  /-- A visit is due. -/
  | due {i : Nat} {b : BlockId} {e : Environment} {rest : List Nat} :
      task.order[i]? = some b → task.Changes start s ⟨i, b, e, rest⟩ →
      Looks task start s (i :: rest) (some ⟨i, b, e, rest⟩)

/-- Nothing arrives at `b` only if there is no edge yet. -/
theorem input_eq_none (h : (task.input start s i b t).1 = none) :
    i ≠ 0 ∧ task.incoming s b = [] := by
  unfold Task.input at h
  split at h
  · cases h
  · rename_i hi
    cases hin : task.incoming s b with
    | nil => exact ⟨hi, rfl⟩
    | cons x xs =>
      rw [hin] at h
      cases h

theorem looks_nextVisit (task : Task) (start : Environment) (s : Sweep) (l : List Nat)
    (t : FormulaTable) : task.Looks start s l (task.nextVisit start s l t).1 := by
  induction l generalizing t with
  | nil => exact .nil
  | cons i rest ih =>
    rw [Task.nextVisit]
    cases hb : task.order[i]? with
    | none => exact .skip (fun b hb' => by simp [hb] at hb') (ih t)
    | some b =>
      -- what arrives at the block decides, and then whether it is equivalent to what did before
      rcases hin : task.input start s i b t with ⟨r, t₁⟩
      dsimp only
      rw [FormulaM.bind_eq hin]
      cases r with
      | none =>
        refine .skip (fun b' hb' _ => ?_) (ih t₁)
        cases hb.symm.trans hb'
        exact input_eq_none (congrArg Prod.fst hin)
      | some e =>
        cases hprev : s.input? i with
        | none => exact .due hb ⟨t, t₁, hin, by simp [hprev]⟩
        | some previous =>
          rcases hsame : previous.equivalent e t₁ with ⟨same, t₂⟩
          dsimp only
          rw [FormulaM.bind_eq hsame]
          cases same with
          | true => exact .skip (fun b' _ hnone => by simp [hprev] at hnone) (ih t₂)
          | false =>
            refine .due hb ⟨t, t₁, hin, fun previous' hprev' => ?_⟩
            cases hprev.symm.trans hprev'
            rw [hsame]

/-- The visit `v` that is found is of a listed block at which something changed; before it,
positions were passed over. -/
theorem Looks.some {v : Visit} (h : task.Looks start s l (some v)) :
    task.order[v.position]? = some v.block ∧ task.Changes start s v ∧
      ∃ passed, l = passed ++ v.position :: v.rest ∧ ∀ i ∈ passed, task.Idle s i := by
  generalize hr : Option.some v = r at h
  induction h with
  | nil => cases hr
  | @skip i rest r hidle _ ih =>
    obtain ⟨hb, hchanges, passed, rfl, hpassed⟩ := ih hr
    exact ⟨hb, hchanges, i :: passed, rfl, List.forall_mem_cons.2 ⟨hidle, hpassed⟩⟩
  | due hb hchanges =>
    cases hr
    exact ⟨hb, hchanges, [], rfl, by simp⟩

/-- If there is no visit, all positions of `l` were passed over. -/
theorem Looks.none (h : task.Looks start s l none) : ∀ i ∈ l, task.Idle s i := by
  generalize hr : Option.none = r at h
  induction h with
  | nil => simp
  | skip hidle _ ih => exact List.forall_mem_cons.2 ⟨hidle, ih hr⟩
  | due _ _ => cases hr

/-- The entry is visited with the `start` of the function. -/
theorem Changes.input_eq {v : Visit} (h : task.Changes start s v) (hv : v.position = 0) :
    v.input = start := by
  obtain ⟨t, t', hin, -⟩ := h
  rw [Task.input, if_pos hv] at hin
  cases hin
  rfl

end Task

/-! ### Visits -/

/-- Where a search stands: its state, the events so far and the table of formulas. -/
structure Moment where
  /-- The state. -/
  sweep : Sweep
  /-- The events so far. -/
  events : Array Event
  /-- The table of formulas. -/
  table : FormulaTable

variable {x y z : Moment} {v : Task.Visit} {bs : List BlockId}

namespace Task

/-- From the start of `b` to the ends of its edges: its instructions are run, and its terminator. -/
def leave (task : Task) (b : BlockId) (e : Environment) :
    AnalysisM (List (BlockId × Environment)) := do
  let e ← task.through b e
  outgoing task.program b e

/-- The positions to look at after a visit that led to `edges`. -/
def lookAt (task : Task) (edges : List (BlockId × Environment)) (rest : List Nat) : List Nat :=
  (edges.filterMap fun x => task.order.idxOf? x.1).foldl (fun l i => insertPosition i l) rest

/-- At the moment `x` of a search, the visit `v` is due and allowed, and leads along `edges` to
the moment `y`. -/
structure Makes (task : Task) (start : Environment) (x : Moment) (v : Visit)
    (edges : List (BlockId × Environment)) (y : Moment) : Prop where
  /-- The block may be visited once more. -/
  allowed : x.sweep.visitCount v.position < task.visitLimit
  /-- The visit is due, and these are the edges from its block. -/
  left : ∃ t, task.nextVisit start x.sweep x.sweep.pending x.table = (some v, t) ∧
    task.leave v.block v.input
      (x.events.push (task.visiting v.block (x.sweep.visitCount v.position + 1))) t =
        ((edges, y.events), y.table)
  /-- Input and edges of the block are stored, and the blocks that the edges lead to are to be
  looked at. -/
  sweep : y.sweep = x.sweep.visited v.position v.input edges (task.lookAt edges v.rest)

/-- From the moment `x` of a search to a later one, by visits of some blocks one after another. -/
inductive Advances (task : Task) (start : Environment) (x : Moment) :
    List BlockId → Moment → Prop
  /-- There is no visit. -/
  | refl : Advances task start x [] x
  /-- One more block is visited. -/
  | visit {bs : List BlockId} {y z : Moment} {v : Visit} {edges : List (BlockId × Environment)} :
      Advances task start x bs y → task.Makes start y v edges z →
      Advances task start x (bs ++ [v.block]) z

/-- How a search ends at `x`: no visit is due, or one is due that is not allowed. -/
inductive Ends (task : Task) (start : Environment) (x : Moment) :
    Except AnalysisError Sweep → FormulaTable → Prop
  /-- No visit is due. -/
  | finished {T : FormulaTable} :
      task.nextVisit start x.sweep x.sweep.pending x.table = (none, T) →
      Ends task start x (.ok { x.sweep with pending := [] }) T
  /-- A visit is not allowed. -/
  | refused {v : Visit} {T : FormulaTable} :
      task.nextVisit start x.sweep x.sweep.pending x.table = (some v, T) →
      task.visitLimit ≤ x.sweep.visitCount v.position →
      Ends task start x
        (.error (.visitLimit task.name (task.program.block v.block).label task.visitLimit)) T

variable {r : Except AnalysisError Sweep}

theorem looks_of_nextVisit {o : Option Visit} (h : task.nextVisit start s l t = (o, T)) :
    task.Looks start s l o := by
  have hlooks := task.looks_nextVisit start s l t
  rwa [h] at hlooks

namespace Makes

theorem looks (h : task.Makes start x v edges y) :
    task.Looks start x.sweep x.sweep.pending (some v) := by
  obtain ⟨t, hnext, -⟩ := h.left
  exact looks_of_nextVisit hnext

theorem block (h : task.Makes start x v edges y) : task.order[v.position]? = some v.block :=
  h.looks.some.1

/-- What `Makes` says of a visit is what the search does with it. -/
theorem visit_eq (h : task.Makes start x v edges y) :
    ∃ t, task.nextVisit start x.sweep x.sweep.pending x.table = (some v, t) ∧
      task.visit x.sweep v x.events t = ((y.sweep, y.events), y.table) := by
  obtain ⟨t, hnext, hleave⟩ := h.left
  have hvisit : task.visit x.sweep v = (do
      report (task.visiting v.block (x.sweep.visitCount v.position + 1))
      let edges ← task.leave v.block v.input
      return x.sweep.visited v.position v.input edges (task.lookAt edges v.rest)) := by
    simp only [Task.visit, Task.leave, bind_assoc]
    rfl
  refine ⟨t, hnext, ?_⟩
  rw [hvisit, h.sweep]
  exact (AnalysisM.bind_eq rfl).trans (AnalysisM.bind_eq hleave)

/-- One step of the search makes one visit. -/
theorem settle_eq (h : task.Makes start x v edges y) :
    task.settle start (n + 1) x.sweep x.events x.table =
      task.settle start n y.sweep y.events y.table := by
  obtain ⟨t, hnext, hvisit⟩ := h.visit_eq
  rw [Task.settle, AnalysisM.lift_bind_eq hnext]
  dsimp only
  rw [if_neg (Nat.not_le.2 h.allowed)]
  exact AnalysisM.bind_eq hvisit

end Makes

/-- A visit `v` that is due and allowed is made. -/
theorem exists_makes (hnext : task.nextVisit start x.sweep x.sweep.pending x.table = (some v, T))
    (hallowed : x.sweep.visitCount v.position < task.visitLimit) :
    ∃ edges y, task.Makes start x v edges y :=
  ⟨_, ⟨_, _, _⟩, hallowed, ⟨T, hnext, rfl⟩, rfl⟩

theorem Advances.settle_eq (h : task.Advances start x bs y) :
    task.settle start (n + bs.length) x.sweep x.events x.table =
      task.settle start n y.sweep y.events y.table := by
  induction h generalizing n with
  | refl => rfl
  | @visit bs y z v edges _ hmakes ih =>
    rw [List.length_append, List.length_singleton, Nat.add_comm bs.length, ← Nat.add_assoc, ih,
      hmakes.settle_eq]

theorem Ends.settle_eq (h : task.Ends start x r T) :
    task.settle start (n + 1) x.sweep x.events x.table = ((r, x.events), T) := by
  cases h with
  | finished hnext =>
    rw [Task.settle, AnalysisM.lift_bind_eq hnext]
    rfl
  | refused hnext hlimit =>
    rw [Task.settle, AnalysisM.lift_bind_eq hnext]
    dsimp only
    rw [if_pos hlimit]
    rfl

/-! ### The number of visits -/

/-- Each visit counts for one. -/
theorem Makes.counted (h : task.Makes start x v edges y) (hx : Counted task x.sweep) :
    Counted task y.sweep ∧ y.sweep.totalVisits = x.sweep.totalVisits + 1 :=
  hx.visited (List.getElem?_eq_some_iff.1 h.block).1 (Nat.not_le.2 h.allowed)
    (congrArg Sweep.visits h.sweep)

theorem Advances.counted (h : task.Advances start x bs y) (hx : Counted task x.sweep) :
    Counted task y.sweep ∧ y.sweep.totalVisits = x.sweep.totalVisits + bs.length := by
  induction h with
  | refl => exact ⟨hx, rfl⟩
  | visit _ hmakes ih =>
    obtain ⟨hcounted, htotal⟩ := hmakes.counted ih.1
    refine ⟨hcounted, ?_⟩
    rw [htotal, ih.2, List.length_append, List.length_singleton, Nat.add_assoc]

/-- **Every search ends.**  Each visit takes one away from those that are left. -/
theorem exists_ends (start : Environment) (hx : Counted task x.sweep) :
    ∃ bs y r T, task.Advances start x bs y ∧ task.Ends start y r T := by
  suffices h : ∀ (k : Nat) {bs : List BlockId} {y : Moment}, task.Advances start x bs y →
      task.visitLimit * task.order.length < y.sweep.totalVisits + k →
      ∃ bs y r T, task.Advances start x bs y ∧ task.Ends start y r T from
    h (task.visitLimit * task.order.length + 1) .refl (by omega)
  intro k
  induction k with
  -- more visits than are allowed were made
  | zero =>
    intro bs y hadvances hleft
    exact absurd hleft (Nat.not_lt.2 (hadvances.counted hx).1.totalVisits_le)
  -- one more visit, unless the search is over or the visit is not allowed
  | succ k ih =>
    intro bs y hadvances hleft
    rcases hnext : task.nextVisit start y.sweep y.sweep.pending y.table with ⟨_ | v, T⟩
    · exact ⟨bs, y, _, T, hadvances, .finished hnext⟩
    · by_cases hallowed : y.sweep.visitCount v.position < task.visitLimit
      · obtain ⟨edges, z, hmakes⟩ := exists_makes hnext hallowed
        obtain ⟨-, htotal⟩ := hmakes.counted (hadvances.counted hx).1
        exact ih (hadvances.visit hmakes) (by omega)
      · exact ⟨bs, y, _, T, hadvances, .refused hnext (Nat.le_of_not_lt hallowed)⟩

/-- The tables of a search after the visit `v`. -/
theorem Makes.visited (h : task.Makes start x v edges y)
    (hsizes : x.sweep.inputs.size = task.order.length ∧
      x.sweep.edges.size = task.order.length ∧ x.sweep.visits.size = task.order.length) (j : Nat) :
    y.sweep.input? j = (if j = v.position then some v.input else x.sweep.input? j) ∧
      y.sweep.edgesFrom j = (if j = v.position then edges else x.sweep.edgesFrom j) ∧
      y.sweep.visitCount j =
        if j = v.position then x.sweep.visitCount v.position + 1 else x.sweep.visitCount j := by
  obtain ⟨hinputs, hedges, hvisits⟩ := hsizes
  have hlt : v.position < task.order.length := (List.getElem?_eq_some_iff.1 h.block).1
  rw [h.sweep]
  exact ⟨Sweep.input?_visited (by omega), Sweep.edgesFrom_visited (by omega),
    Sweep.visitCount_visited (by omega)⟩

end Task

/-! ### What a course leaves behind -/

/-- The edges by which `b` is left are those of its terminator. -/
theorem mem_outgoing_iff (p : Program) (b : BlockId) (e : Environment) (t : FormulaTable) :
    c ∈ (outgoing p b e t).1.map Prod.fst ↔ p.Edge b c := by
  unfold outgoing Program.Edge Program.successors
  have hnone : c ∈ ([] : List BlockId) ↔ ∃ target ∈ ([] : List Target), target.block = c := by simp
  cases hterm : p.terminator? b with
  | none => exact hnone
  | some op =>
    cases op with
    | branch target =>
      change c ∈ [target.block] ↔ ∃ target' ∈ [target], target'.block = c
      simp [eq_comm]
    | condBranch cond whenTrue whenFalse =>
      change _ ↔ ∃ target ∈ [whenTrue, whenFalse], target.block = c
      -- where the edges lead does not depend on what is known of the condition
      have hfork : ∀ (e : Environment) (f : Formula) (t : FormulaTable), c ∈ ((do
          let e₁ ← enter p whenTrue (← e.assume f)
          let e₂ ← enter p whenFalse (← e.assume (← mkNot f))
          if whenTrue.block = whenFalse.block then return [(whenTrue.block, ← e₁.join e₂)]
          else return [(whenTrue.block, e₁), (whenFalse.block, e₂)] :
            FormulaM (List (BlockId × Environment))) t).1.map Prod.fst ↔
          ∃ target ∈ [whenTrue, whenFalse], target.block = c := by
        intro e f t
        by_cases hsame : whenTrue.block = whenFalse.block
        · simp only [hsame, if_true]
          change c ∈ [whenFalse.block] ↔ _
          simp [hsame, eq_comm]
        · simp only [hsame, if_false]
          change c ∈ [whenTrue.block, whenFalse.block] ↔ _
          simp [eq_comm]
      rcases hfound : operandFormula p e cond t with ⟨⟨_ | f, e⟩, t₁⟩
      · rcases hfresh : Environment.freshFormula t₁ with ⟨f, t₂⟩
        dsimp only
        rw [FormulaM.bind_eq hfound]
        dsimp only
        rw [FormulaM.bind_eq hfresh]
        exact hfork e f t₂
      · dsimp only
        rw [FormulaM.bind_eq hfound]
        dsimp only
        rw [pure_bind]
        exact hfork e f t₁
    | annotate | not | binary | call | compare | nop | ret => exact hnone

namespace Task

theorem Makes.mem_edges_iff (h : task.Makes start x v edges y) :
    c ∈ edges.map Prod.fst ↔ task.program.Edge v.block c := by
  obtain ⟨t, -, hleave⟩ := h.left
  have hedges : (task.leave v.block v.input (x.events.push (task.visiting v.block
      (x.sweep.visitCount v.position + 1))) t).1.1 = edges := by rw [hleave]
  rw [← hedges]
  exact mem_outgoing_iff _ _ _ _

theorem idxOf?_order (hbody : task.program.HasBody task.function)
    (hb : task.order[i]? = some b) : task.order.idxOf? b = some i :=
  idxOf?_eq_some_of_nodup (task.order_eq ▸ nodup_reversePostOrder hbody.closed) hb

theorem mem_lookAt {rest : List Nat} : j ∈ task.lookAt edges rest ↔
    (∃ x ∈ edges, task.order.idxOf? x.1 = some j) ∨ j ∈ rest := by
  rw [lookAt, mem_foldl_insertPosition, List.mem_filterMap]

end Task

/-- What every visit preserves, whatever the model does.  A block that was visited has an edge in
`s` to each block that it branches to, and these blocks were visited or are pending. -/
structure Explored (task : Task) (start : Environment) (s : Sweep) : Prop where
  /-- There is an entry for each block in all tables. -/
  sizes : s.inputs.size = task.order.length ∧ s.edges.size = task.order.length ∧
    s.visits.size = task.order.length
  /-- The entry is visited with the start. -/
  first : ∀ {e}, s.input? 0 = some e → e = start
  /-- The entry was visited or is pending. -/
  entry : s.input? 0 = none → 0 ∈ s.pending
  /-- There are edges to the blocks that a visited block branches to. -/
  exits : ∀ {i b c}, task.order[i]? = some b → s.input? i ≠ none → task.program.Edge b c →
    ∃ e, s.edge? i c = some e
  /-- These blocks were visited or are pending. -/
  onward : ∀ {i j b c}, task.order[i]? = some b → s.input? i ≠ none → task.program.Edge b c →
    task.order[j]? = some c → s.input? j = none → j ∈ s.pending

theorem explored_start : Explored task start (.start task.order.length) where
  sizes := ⟨Array.size_replicate, Array.size_replicate, Array.size_replicate⟩
  first he := by simp [Sweep.input?_start] at he
  entry _ := List.mem_singleton_self 0
  exits _ hi := absurd (Sweep.input?_start _ _) hi
  onward _ hi := absurd (Sweep.input?_start _ _) hi

namespace Explored

/-- A block `c` that a visited block `b` branches to is passed over only if it was visited. -/
theorem not_idle (h : Explored task start s) (hbuilt : task.program.Built)
    (hb : task.order[i]? = some b) (hi : s.input? i ≠ none) (hedge : task.program.Edge b c)
    (hc : task.order[j]? = some c) (hj : s.input? j = none) : ¬ task.Idle s j := by
  intro hidle
  obtain ⟨e, he⟩ := h.exits hb hi hedge
  have hmem : e ∈ task.incoming s c :=
    mem_incoming_iff.2 ⟨i, b, hb, hbuilt.mem_preds_of_edge hedge, he⟩
  rw [(hidle c hc hj).2] at hmem
  cases hmem

/-- What the visit `v` preserves. -/
theorem makes (hx : Explored task start x.sweep) (hbody : task.program.HasBody task.function)
    (h : task.Makes start x v edges y) : Explored task start y.sweep := by
  obtain ⟨hblock, hchanges, passed, hpending, hpassed⟩ := h.looks.some
  have hvisited := h.visited hx.sizes
  have hnext : y.sweep.pending = task.lookAt edges v.rest := by rw [h.sweep]; rfl
  -- a block that is still not visited was not, and is still pending unless it was passed over
  have hbefore : ∀ {j}, y.sweep.input? j = none → j ≠ v.position ∧ x.sweep.input? j = none := by
    intro j hj
    rw [(hvisited j).1] at hj
    split at hj
    · cases hj
    · exact ⟨‹_›, hj⟩
  have hstays : ∀ {j}, j ∈ x.sweep.pending → j ≠ v.position → ¬ task.Idle x.sweep j →
      j ∈ y.sweep.pending := by
    intro j hj hne hidle
    rw [hpending, List.mem_append, List.mem_cons] at hj
    rw [hnext]
    rcases hj with hj | hj | hj
    · exact absurd (hpassed j hj) hidle
    · exact absurd hj hne
    · exact Task.mem_lookAt.2 (Or.inr hj)
  refine ⟨?_, fun {e} he => ?_, fun h₀ => ?_, fun {i b c} hb hi hedge => ?_,
    fun {i j b c} hb hi hedge hc hj => ?_⟩
  · -- the tables keep their sizes, and the entry its input
    rw [h.sweep]
    simpa only [Sweep.visited, Array.size_setIfInBounds] using hx.sizes
  · rw [(hvisited 0).1] at he
    split at he
    · rename_i hv
      cases he
      exact hchanges.input_eq hv.symm
    · exact hx.first he
  · obtain ⟨hne, hnone⟩ := hbefore h₀
    refine hstays (hx.entry hnone) hne fun hidle => ?_
    exact (hidle _ (Task.order_zero hbody) hnone).1 rfl
  · -- the block that is visited has an edge to all that it branches to, as the others had
    rw [(hvisited i).1] at hi
    rw [Sweep.edge?_eq, (hvisited i).2.1]
    by_cases hiv : i = v.position
    · subst hiv
      cases hblock.symm.trans hb
      rw [if_pos rfl, ← Option.ne_none_iff_exists']
      intro hnone
      obtain ⟨x, hmem, rfl⟩ := List.mem_map.1 (h.mem_edges_iff.2 hedge)
      simpa using List.lookup_eq_none_iff.1 hnone x hmem
    · rw [if_neg hiv] at hi ⊢
      exact hx.exits hb hi hedge
  · obtain ⟨hne, hnone⟩ := hbefore hj
    rw [(hvisited i).1] at hi
    by_cases hiv : i = v.position
    · subst hiv
      cases hblock.symm.trans hb
      obtain ⟨x, hmem, rfl⟩ := List.mem_map.1 (h.mem_edges_iff.2 hedge)
      rw [hnext]
      exact Task.mem_lookAt.2 (Or.inl ⟨x, hmem, Task.idxOf?_order hbody hc⟩)
    · rw [if_neg hiv] at hi
      exact hstays (hx.onward hb hi hedge hc hnone) hne
        (hx.not_idle hbody.built hb hi hedge hc hnone)

theorem advances (hx : Explored task start x.sweep) (hbody : task.program.HasBody task.function)
    (h : task.Advances start x bs y) : Explored task start y.sweep := by
  induction h with
  | refl => exact hx
  | visit _ hmakes ih => exact ih.makes hbody hmakes

/-- **Every block that can be reached is visited.**  When no visit is due, the blocks that are
pending are passed over, so a block `b` that was not visited has no edge from one that was. -/
theorem exists_input (h : Explored task start x.sweep)
    (hbody : task.program.HasBody task.function)
    (hover : task.nextVisit start x.sweep x.sweep.pending x.table = (none, T))
    (hb : task.Reached b) : ∃ i e, task.order[i]? = some b ∧ x.sweep.input? i = some e := by
  have hidle := (Task.looks_of_nextVisit hover).none
  refine hb.exists_input hbody (fun hnone => ?_) fun {i j b c} hi hvisited hedge hj hnone => ?_
  · exact (hidle 0 (h.entry hnone) _ (Task.order_zero hbody) hnone).1 rfl
  · exact h.not_idle hbody.built hi hvisited hedge hj hnone
      (hidle j (h.onward hi hvisited hedge hj hnone))

end Explored

/-! ### The search of an analysis -/

theorem Program.isDeclaration_of_mem_bodies {p : Program} {f : FunctionId} (hf : f ∈ p.bodies) :
    (p.function f).isDeclaration = false := by
  simpa using (List.mem_filter.1 hf).2

theorem Counted.visitCount_le (h : Counted task s) (i : Nat) :
    s.visitCount i ≤ task.visitLimit := by
  unfold Sweep.visitCount
  cases hi : s.visits[i]? with
  | none => exact Nat.zero_le _
  | some k => exact h.le k (Array.mem_toList_iff.2 (Array.mem_of_getElem? hi))

theorem Sweep.totalVisits_start (n : Nat) : (Sweep.start n).totalVisits = 0 := by
  rw [totalVisits_eq_sum]
  simp [Sweep.start]

namespace Task

/-- What an analysis makes of the end of its search. -/
def conclude (task : Task) : Except AnalysisError Sweep → AnalysisM (Except AnalysisError Analysis)
  | .error e => return .error e
  | .ok s => do
      let points ← task.order.zipIdx.foldlM (task.noteBlock s) []
      report (task.converged s.totalVisits)
      return .ok { points, visits := s.totalVisits }

/-- The search of an analysis, from `events` and the table `t` on: the environment `start` it
begins with, the blocks `bs` it visits one after another, and a moment `x` it gets to. -/
def Course (task : Task) (events : Array Event) (t : FormulaTable) (start : Environment)
    (bs : List BlockId) (x : Moment) : Prop :=
  ∃ t₀, task.atStart t = (start, t₀) ∧
    task.Advances start ⟨.start task.order.length, events, t₀⟩ bs x

variable {r : Except AnalysisError Sweep}

theorem exists_course (task : Task) (events : Array Event) (t : FormulaTable) :
    ∃ start bs x r T, task.Course events t start bs x ∧ task.Ends start x r T := by
  rcases hstart : task.atStart t with ⟨start, t₀⟩
  obtain ⟨bs, x, r, T, hadvances, hends⟩ :=
    exists_ends start (x := ⟨.start task.order.length, events, t₀⟩) counted_start
  exact ⟨start, bs, x, r, T, ⟨t₀, hstart, hadvances⟩, hends⟩

namespace Course

variable (h : task.Course events t start bs x)

include h

theorem explored (hbody : task.program.HasBody task.function) : Explored task start x.sweep := by
  obtain ⟨t₀, -, hadvances⟩ := h
  exact explored_start.advances hbody hadvances

theorem counted : Counted task x.sweep ∧ x.sweep.totalVisits = bs.length := by
  obtain ⟨t₀, -, hadvances⟩ := h
  obtain ⟨hcounted, htotal⟩ := hadvances.counted counted_start
  rw [Sweep.totalVisits_start, Nat.zero_add] at htotal
  exact ⟨hcounted, htotal⟩

/-- When no visit is due at `x`, every block has an input. -/
theorem exists_input (hbody : task.program.HasBody task.function)
    (hover : task.nextVisit start x.sweep x.sweep.pending x.table = (none, T))
    (hb : task.order[i]? = some b) : ∃ e, x.sweep.input? i = some e := by
  obtain ⟨j, e, hj, he⟩ := (h.explored hbody).exists_input hbody hover
    (Task.reached_of_position hbody hb)
  rw [Task.position_unique hbody hb hj]
  exact ⟨e, he⟩

theorem length_le : bs.length ≤ task.visitLimit * task.order.length :=
  h.counted.2 ▸ h.counted.1.totalVisits_le

/-- The steps that an analysis allows its search are enough for all visits `bs`. -/
theorem settle_eq (hends : task.Ends start x r T) :
    ∃ t₀, task.atStart t = (start, t₀) ∧
      task.settle start (task.visitLimit * task.order.length + 1) (.start task.order.length)
        events t₀ = ((r, x.events), T) := by
  have hle := h.length_le
  obtain ⟨t₀, hstart, hadvances⟩ := h
  obtain ⟨k, hk⟩ := Nat.exists_eq_add_of_le hle
  refine ⟨t₀, hstart, ?_⟩
  rw [hk, Nat.add_comm bs.length, Nat.add_right_comm, hadvances.settle_eq, hends.settle_eq]

/-- **The analysis is concluded from where its search ended.** -/
theorem analyse_eq (hends : task.Ends start x r T)
    (hbody : (task.program.function task.function).isDeclaration = false) :
    task.analyse events t = task.conclude r x.events T := by
  obtain ⟨t₀, hstart, hsettle⟩ := h.settle_eq hends
  unfold Task.analyse
  rw [hbody]
  refine (AnalysisM.lift_bind_eq hstart).trans ((AnalysisM.bind_eq hsettle).trans ?_)
  cases r <;> rfl

/-- The visits of `b` are counted, and it has an input if it was visited. -/
theorem visitCount_eq (hbody : task.program.HasBody task.function) (hb : task.order[i]? = some b) :
    x.sweep.visitCount i = bs.count b ∧ (x.sweep.input? i = none ↔ b ∉ bs) := by
  obtain ⟨t₀, -, hadvances⟩ := h
  induction hadvances with
  | refl => exact ⟨Sweep.visitCount_start _ i, by simp [Sweep.input?_start]⟩
  | @visit bs y z v edges hadvances hmakes ih =>
    obtain ⟨hinput, -, hcount⟩ :=
      hmakes.visited (explored_start.advances hbody hadvances).sizes i
    rw [hinput, hcount, List.count_append, List.count_singleton, List.mem_append,
      List.mem_singleton]
    -- the last visit is of `b` or of another block
    by_cases hi : i = v.position
    · subst hi
      cases hb.symm.trans hmakes.block
      simp [ih.1]
    · have hne : ¬ v.block = b := by
        rintro rfl
        exact hi (Task.position_unique hbody hb hmakes.block)
      simp [hi, hne, Ne.symm hne, ih.1, ih.2]

theorem mem_order (hb : b ∈ bs) : b ∈ task.order := by
  obtain ⟨t₀, -, hadvances⟩ := h
  induction hadvances with
  | refl => cases hb
  | visit _ hmakes ih =>
    rcases List.mem_append.1 hb with hb | hb
    · exact ih hb
    · rw [List.mem_singleton.1 hb]
      exact List.mem_of_getElem? hmakes.block

/-- No block `b` is visited more often than allowed. -/
theorem count_le (hbody : task.program.HasBody task.function) (b : BlockId) :
    bs.count b ≤ task.visitLimit := by
  by_cases hb : b ∈ bs
  · obtain ⟨i, hi⟩ := List.getElem?_of_mem (h.mem_order hb)
    rw [← (h.visitCount_eq hbody hi).1]
    exact h.counted.1.visitCount_le i
  · rw [List.count_eq_zero_of_not_mem hb]
    exact Nat.zero_le _

end Course

/-- If the analysis has a `result`, no visit is due at the end of its search. -/
theorem exists_course_of_analyse {events' : Array Event} {t' : FormulaTable} {result : Analysis}
    (h : task.analyse events t = ((.ok result, events'), t'))
    (hbody : (task.program.function task.function).isDeclaration = false) :
    ∃ start bs x T, task.Course events t start bs x ∧
      task.nextVisit start x.sweep x.sweep.pending x.table = (none, T) ∧
      task.conclude (.ok { x.sweep with pending := [] }) x.events T =
        ((.ok result, events'), t') := by
  obtain ⟨start, bs, x, r, T, hcourse, hends⟩ := task.exists_course events t
  have hanalyse := (hcourse.analyse_eq hends hbody).symm.trans h
  cases hends with
  | finished hnext => exact ⟨start, bs, x, T, hcourse, hnext, hanalyse⟩
  | refused => cases hanalyse

end Task

end FlowFacts
