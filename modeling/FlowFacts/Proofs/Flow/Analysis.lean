import FlowFacts.Proofs.Flow.Sweep
import FlowFacts.Proofs.Program.Body

/-!
# The result of an analysis

The search begins with an environment in which the arguments of the function may be anything.
Once it is over, the environments at the annotations are those that the environments at the
starts of the blocks lead to.

## Main definitions

* `Opened` — the environment at the start of a function.
* `Noting` — what was noted on the way.
* `Analysed` — what the result of an analysis says.

## Main results

* `leadsTo_outcome`, `exists_analysed` — what the analysis of a function results in.
-/

namespace FlowFacts

open FormulaM FormulaTable AnalysisM Program

variable {t t' T : FormulaTable} {e e₁ e₂ e' : Environment} {v w : ValueId} {b c : BlockId}
  {i j n : Nat} {p : Program} {R : Model.Rule} {task : Task} {start : Environment} {s s' : Sweep}

/-! ### The start -/

/-- The values of a list get new meanings one after another: each may be anything in `e'`. -/
inductive RenewedAll (T : FormulaTable) : List ValueId → Environment → Environment → Prop
  /-- There is no value left. -/
  | nil (e : Environment) : RenewedAll T [] e e
  /-- One value comes first. -/
  | cons {v : ValueId} {vs : List ValueId} {a : Atom} {f : Formula} {e e₁ e' : Environment} :
      Renewed T e v a f e₁ → RenewedAll T vs e₁ e' → RenewedAll T (v :: vs) e e'

theorem yields_foldlM_renew {vs : List ValueId} : ∀ {t : FormulaTable} {e : Environment},
    t.WellFormed → e.Within t →
      Yields (vs.foldlM (fun e v => do return (← e.renew v).2) e) t fun e' t' => e'.Within t' ∧
        t'.Henceforth fun T => RenewedAll T vs e e' := by
  induction vs with
  | nil => exact fun ht he => yields_pure ht ⟨he, fun T _ _ => .nil _⟩
  | cons v vs ih =>
    intro t e ht he
    rw [List.foldlM_cons, bind_assoc]
    refine (yields_renew ht he v).bind ?_
    rintro ⟨f, e₁⟩ t₁ ht₁ _ ⟨he₁, hrenewed⟩
    rw [pure_bind]
    refine (ih ht₁ he₁).mono ?_
    rintro e' t₂ _ hg₂ ⟨he', hrest⟩
    refine ⟨he', fun T hT hgT => ?_⟩
    obtain ⟨a, ha⟩ := hrenewed T hT (hg₂.trans hgT)
    exact .cons ha (hrest T hT hgT)

/-- The arguments of `f` that are truth values. -/
def Program.boolArgs (p : Program) (f : FunctionId) : List ValueId :=
  ((p.function f).args.map Prod.snd).filter p.isBool

/-- The environment `e'` at the start of `f`: nothing is known, and the arguments may be
anything. -/
def Opened (T : FormulaTable) (p : Program) (f : FunctionId) (e' : Environment) : Prop :=
  ∃ e, (∀ ρ, T.holds ρ e.flow = true) ∧ (∀ a, ¬ T.Occurs a e.flow) ∧
    (∀ v, e.values.get? v = none) ∧ RenewedAll T (p.boolArgs f) e e'

theorem yields_atStart (ht : t.WellFormed) (task : Task) :
    Yields task.atStart t fun e t' => e.Within t' ∧
      t'.Henceforth fun T => Opened T task.program task.function e := by
  -- the arguments that are no truth values are passed over, so they may be left out first
  have hargs : task.atStart = (do
      let e ← Environment.unknown
      (task.program.boolArgs task.function).foldlM (fun e v => do return (← e.renew v).2) e) := by
    unfold Task.atStart Program.boolArgs
    simp only [List.filter_map, List.foldlM_map]
    rfl
  rw [hargs]
  unfold Environment.unknown
  rw [bind_assoc]
  refine (yields_mkLiteral ht true).bind fun flow t₁ ht₁ _ hflow => ?_
  rw [pure_bind]
  refine (yields_foldlM_renew ht₁ ⟨hflow.has, by simp [Bindings.get?_empty]⟩).mono ?_
  rintro e' t₂ _ hg₂ ⟨he', hrest⟩
  refine ⟨he', fun T hT hgT => ⟨_, fun ρ => ?_, fun a ha => ?_, fun v => Bindings.get?_empty,
    hrest T hT hgT⟩⟩
  · exact (hflow.henceforth ht₁ T hT (hg₂.trans hgT)).holds ρ
  · exact (hflow.henceforth ht₁ T hT (hg₂.trans hgT)).occurs ha

/-! ### Annotations -/

/-- Of two environments noted for one `name` the later counts. -/
theorem lookup_note {points : List (String × Environment)} {m name : String} :
    (Task.note points name e).lookup m = if m = name then some e else points.lookup m := by
  -- a note for a name that was noted replaces the old one where it stands
  have hreplace : ∀ l : List (String × Environment),
      (l.map fun x => if x.1 == name then (name, e) else x).lookup m =
        if m = name then (l.lookup m).map fun _ => e else l.lookup m := by
    intro l
    induction l with
    | nil => simp
    | cons x l ih =>
      obtain ⟨k, e₀⟩ := x
      rw [List.map_cons]
      by_cases hk : k = name
      · subst hk
        simp only [beq_self_eq_true, if_true, lookup_cons_eq, ih]
        split <;> rfl
      · rw [if_neg (by simpa using hk), lookup_cons_eq, lookup_cons_eq, ih]
        by_cases hm : m = name
        · have hmk : m ≠ k := fun h => hk (h.symm.trans hm)
          simp only [hmk, if_false]
        · simp only [hm, if_false]
  unfold Task.note
  split
  · rename_i hany
    rw [hreplace]
    split
    · rename_i hm
      obtain ⟨⟨k, e₀⟩, hmem, hk⟩ := List.any_eq_true.1 hany
      obtain ⟨e₁, he₁⟩ : ∃ e₁, points.lookup m = some e₁ := by
        refine Option.ne_none_iff_exists'.1 fun hnone => ?_
        have := List.lookup_eq_none_iff.1 hnone _ hmem
        simp_all
      rw [he₁, Option.map_some]
    · rfl
  · -- a note for a new name goes to the end
    rename_i hany
    rw [List.lookup_append, lookup_cons_eq, List.lookup_nil]
    split
    · rename_i hm
      have hnone : points.lookup m = none := by
        rw [List.lookup_eq_none_iff]
        intro x hx
        rw [bne_iff_ne]
        rintro rfl
        exact hany (List.any_eq_true.2 ⟨x, hx, by simp [hm]⟩)
      rw [hnone, Option.none_or]
    · rw [Option.or_none]

theorem nodup_note {points : List (String × Environment)} {name : String}
    (h : (points.map Prod.fst).Nodup) : ((Task.note points name e).map Prod.fst).Nodup := by
  unfold Task.note
  split
  · -- the names stay as they are
    have hsame : (points.map fun x => if x.1 == name then (name, e) else x).map Prod.fst =
        points.map Prod.fst := by
      rw [List.map_map]
      refine List.map_congr_left fun x _ => ?_
      by_cases hx : x.1 = name
      · simp [hx]
      · simp [hx]
    rwa [hsame]
  · rename_i hany
    rw [List.map_append, List.map_singleton, ← List.concat_eq_append]
    refine h.concat fun hmem => hany ?_
    obtain ⟨x, hx, hname⟩ := List.mem_map.1 hmem
    exact List.any_eq_true.2 ⟨x, hx, by simpa using hname⟩

/-- What was noted on the way from `points` to `points'`: each new note is at a place that `Here`
describes, and all the names of `Names` are noted. -/
structure Noting (Here : String → Environment → Prop) (Names : String → Prop)
    (points points' : List (String × Environment)) : Prop where
  /-- A note was there or is at such a place. -/
  origin : ∀ {n e}, points'.lookup n = some e → points.lookup n = some e ∨ Here n e
  /-- Names that were noted still are. -/
  kept : ∀ {n}, (points.lookup n).isSome → (points'.lookup n).isSome
  /-- The names given are noted. -/
  found : ∀ {n}, Names n → (points'.lookup n).isSome
  /-- A name is noted once. -/
  distinct : (points.map Prod.fst).Nodup → (points'.map Prod.fst).Nodup

namespace Noting

variable {Here Here' : String → Environment → Prop} {Names Names' : String → Prop}
  {points points₁ points' : List (String × Environment)}

protected theorem refl (h : ∀ n, ¬ Names n) : Noting Here Names points points where
  origin := Or.inl
  kept := id
  found hn := absurd hn (h _)
  distinct := id

theorem trans (h : Noting Here Names points points₁) (h' : Noting Here' Names' points₁ points') :
    Noting (fun n e => Here n e ∨ Here' n e) (fun n => Names n ∨ Names' n) points points' where
  origin hn := by
    rcases h'.origin hn with hn | hn
    · exact (h.origin hn).imp_right Or.inl
    · exact Or.inr (Or.inr hn)
  kept hn := h'.kept (h.kept hn)
  found hn := hn.elim (fun hn => h'.kept (h.found hn)) h'.found
  distinct hn := h'.distinct (h.distinct hn)

theorem imp (h : Noting Here Names points points') (hhere : ∀ n e, Here n e → Here' n e)
    (hnames : ∀ n, Names' n → Names n) : Noting Here' Names' points points' where
  origin hn := (h.origin hn).imp_right (hhere _ _)
  kept := h.kept
  found hn := h.found (hnames _ hn)
  distinct := h.distinct

end Noting

/-- There is an annotation `name` among the instructions `vs`, and they lead from `e` to the
environment `e'` before it. -/
def NotedAmong (R : Model.Rule) (T : FormulaTable) (p : Program) (vs : List ValueId)
    (e : Environment) (name : String) (e' : Environment) : Prop :=
  ∃ before v after, vs = before ++ v :: after ∧ p.operation? v = some (.annotate name) ∧
    RunsThrough R T p before e e'

/-- There is an annotation `name` among the instructions `vs`. -/
def Program.Annotates (p : Program) (vs : List ValueId) (name : String) : Prop :=
  ∃ v ∈ vs, p.operation? v = some (.annotate name)

/-- The environments of the notes `points` are in the table `t`. -/
def PointsWithin (points : List (String × Environment)) (t : FormulaTable) : Prop :=
  ∀ n e, points.lookup n = some e → e.Within t

/-- The notes right before the instruction `v`, which is looked at in `e`. -/
def Task.notedBefore (task : Task) (points : List (String × Environment)) (e : Environment)
    (v : ValueId) : List (String × Environment) :=
  match task.program.operation? v with
  | some (.annotate name) => Task.note points name e
  | _ => points

theorem noting_notedBefore (task : Task) (points : List (String × Environment))
    (e : Environment) (v : ValueId) :
    Noting (fun n e' => task.program.operation? v = some (.annotate n) ∧ e' = e)
      (fun n => task.program.operation? v = some (.annotate n)) points
      (task.notedBefore points e v) := by
  unfold Task.notedBefore
  split
  · rename_i name hop
    refine ⟨fun {n e'} hn => ?_, fun {n} hn => ?_, fun {n} hn => ?_, nodup_note⟩
    · rw [lookup_note] at hn
      split at hn
      · rename_i hname
        exact Or.inr ⟨by rw [hop, hname], (Option.some.inj hn).symm⟩
      · exact Or.inl hn
    · rw [lookup_note]
      split <;> simp_all
    · rw [hop, Option.some.injEq, Operation.annotate.injEq] at hn
      simp [lookup_note, hn]
  · rename_i hop
    exact .refl fun n hn => hop n hn

theorem leadsTo_foldlM_noteStep (h : task.Regular R) {vs : List ValueId} :
    ∀ {t : FormulaTable} {points : List (String × Environment)} {e : Environment},
      t.WellFormed → PointsWithin points t → e.Within t →
      LeadsTo (vs.foldlM task.noteStep (points, e)) t fun r t' => PointsWithin r.1 t' ∧
        t'.Henceforth fun T => Noting (NotedAmong R T task.program vs e)
          (task.program.Annotates vs) points r.1 := by
  induction vs with
  | nil =>
    intro t points e ht hpoints _
    exact leadsTo_pure ht ⟨hpoints, fun T _ _ => .refl (by simp [Program.Annotates])⟩
  | cons v vs ih =>
    intro t points e ht hpoints he
    have hstep : task.noteStep (points, e) v = (do
        return (task.notedBefore points e v, ← task.step e v)) := rfl
    rw [List.foldlM_cons, hstep, bind_assoc]
    have hnoting := noting_notedBefore task points e v
    refine (leadsTo_step h ht he v).bind ?_
    rintro e₁ t₁ ht₁ hg₁ ⟨he₁, hstepped⟩
    rw [pure_bind]
    -- the environment noted before `v` is the one that `v` is looked at in
    have hpoints₁ : PointsWithin (task.notedBefore points e v) t₁ := by
      intro n e' hn
      rcases hnoting.origin hn with hn | ⟨-, rfl⟩
      · exact (hpoints n e' hn).mono hg₁
      · exact he.mono hg₁
    refine (ih ht₁ hpoints₁ he₁).mono ?_
    rintro ⟨points', e'⟩ t₂ _ hg₂ ⟨hpoints', hrest⟩
    refine ⟨hpoints', fun T hT hgT => (hnoting.trans (hrest T hT hgT)).imp ?_ ?_⟩
    · rintro n e₂ (⟨hop, rfl⟩ | ⟨before, w, after, rfl, hop, hrun⟩)
      · exact ⟨[], v, vs, rfl, hop, .nil _⟩
      · exact ⟨v :: before, w, after, rfl, hop, .cons (hstepped T hT (hg₂.trans hgT)) hrun⟩
    · rintro n ⟨w, hw, hop⟩
      rcases List.mem_cons.1 hw with rfl | hw
      · exact Or.inl hop
      · exact Or.inr ⟨w, hw, hop⟩

/-- There is an annotation `name` in one of the blocks `xs`, and the input of the block leads to
the environment `e'` before it. -/
def NotedIn (R : Model.Rule) (T : FormulaTable) (p : Program) (s : Sweep)
    (xs : List (BlockId × Nat)) (name : String) (e' : Environment) : Prop :=
  ∃ x ∈ xs, ∃ e, s.input? x.2 = some e ∧
    NotedAmong R T p (p.block x.1).instructions e name e'

/-- There is an annotation `name` in one of the blocks `xs` that were visited. -/
def Program.AnnotatesIn (p : Program) (s : Sweep) (xs : List (BlockId × Nat)) (name : String) :
    Prop :=
  ∃ x ∈ xs, (s.input? x.2).isSome ∧ p.Annotates (p.block x.1).instructions name

theorem leadsTo_foldlM_noteBlock (h : task.Regular R) {xs : List (BlockId × Nat)} :
    ∀ {t : FormulaTable} {points : List (String × Environment)},
      t.WellFormed → PointsWithin points t → (∀ i e, s.input? i = some e → e.Within t) →
      LeadsTo (xs.foldlM (task.noteBlock s) points) t fun points' t' => PointsWithin points' t' ∧
        t'.Henceforth fun T => Noting (NotedIn R T task.program s xs)
          (task.program.AnnotatesIn s xs) points points' := by
  induction xs with
  | nil =>
    intro t points ht hpoints _
    exact leadsTo_pure ht ⟨hpoints, fun T _ _ => .refl (by simp [Program.AnnotatesIn])⟩
  | cons x xs ih =>
    intro t points ht hpoints hinput
    rw [List.foldlM_cons]
    have hblock : LeadsTo (task.noteBlock s points x) t fun points' t' =>
        PointsWithin points' t' ∧ t'.Henceforth fun T =>
          Noting (NotedIn R T task.program s [x]) (task.program.AnnotatesIn s [x])
            points points' := by
      unfold Task.noteBlock
      cases he : s.input? x.2 with
      -- a block that was not visited has nothing to note
      | none =>
        exact leadsTo_pure ht ⟨hpoints, fun T _ _ => .refl (by simp [Program.AnnotatesIn, he])⟩
      | some e =>
        refine (leadsTo_foldlM_noteStep h ht hpoints (hinput x.2 e he)).bind ?_
        rintro ⟨points', e'⟩ t₁ ht₁ _ ⟨hpoints', hnoting⟩
        refine leadsTo_pure ht₁ ⟨hpoints', fun T hT hgT => (hnoting T hT hgT).imp ?_ ?_⟩
        · exact fun n e' hn => ⟨x, by simp, e, he, hn⟩
        · rintro n ⟨y, hy, -, hn⟩
          rwa [List.mem_singleton.1 hy] at hn
    refine hblock.bind ?_
    rintro points₁ t₁ ht₁ hg₁ ⟨hpoints₁, hnoting₁⟩
    refine (ih ht₁ hpoints₁ fun i e he => (hinput i e he).mono hg₁).mono ?_
    rintro points' t₂ _ hg₂ ⟨hpoints', hnoting₂⟩
    refine ⟨hpoints', fun T hT hgT =>
      ((hnoting₁ T hT (hg₂.trans hgT)).trans (hnoting₂ T hT hgT)).imp ?_ ?_⟩
    · rintro n e (⟨y, hy, hn⟩ | ⟨y, hy, hn⟩)
      · exact ⟨y, by simp [List.mem_singleton.1 hy], hn⟩
      · exact ⟨y, List.mem_cons_of_mem x hy, hn⟩
    · rintro n ⟨y, hy, hn⟩
      rcases List.mem_cons.1 hy with rfl | hy
      · exact Or.inl ⟨y, by simp, hn⟩
      · exact Or.inr ⟨y, hy, hn⟩

/-! ### The analysis -/

/-- What the result `a` of an analysis says: the search settled in the state `s`, and the
environments at the annotations are those that the inputs of the blocks lead to. -/
structure Analysed (R : Model.Rule) (task : Task) (T : FormulaTable) (start : Environment)
    (s : Sweep) (a : Analysis) : Prop where
  /-- The search began with the start of the function. -/
  opened : Opened T task.program task.function start
  /-- It came to this state. -/
  sweepsTo : SweepsTo R task T start s
  /-- All blocks are settled. -/
  swept : Swept R task start T s []
  /-- The environments noted are in the table. -/
  within : PointsWithin a.points T
  /-- They are those at the annotations of the blocks visited. -/
  noted : Noting (NotedIn R T task.program s task.order.zipIdx)
    (task.program.AnnotatesIn s task.order.zipIdx) [] a.points

/-- The analysis of a task has a result that says what it should, or a visit was not allowed, or
there is no body. -/
theorem leadsTo_outcome (h : task.Regular R) (ht : t.WellFormed) :
    LeadsTo task.analyse t fun r t' => (∀ a, r = .ok a → ∃ start s, Analysed R task t' start s a) ∧
      ∀ err, r = .error err → (task.program.function task.function).isDeclaration = true ∨
        ∃ start, Opened t' task.program task.function start ∧ task.Exhausted R t' start := by
  unfold Task.analyse
  split
  · rename_i hdecl
    exact leadsTo_pure ht ⟨by simp, fun _ _ => Or.inl hdecl⟩
  apply (leadsTo_lift (yields_atStart ht task)).bind
  rintro start t₁ ht₁ _ ⟨hstart, hopened⟩
  apply (leadsTo_settle h ht₁ hstart swept_start counted_start fun T _ _ => .start).bind
  rintro r t₂ ht₂ hg₂ ⟨hends, hr⟩
  cases r with
  | error e =>
    refine leadsTo_pure ht₂ ⟨by simp, fun _ _ => Or.inr ⟨start, ?_, hends t₂ ht₂ (.refl t₂)⟩⟩
    exact hopened t₂ ht₂ hg₂
  | ok s =>
    obtain ⟨hswept, hpending⟩ := hr s rfl
    -- a search that ends with a state has looked at all that was pending
    rw [hpending (by omega)] at hswept
    refine (leadsTo_foldlM_noteBlock h ht₂ (by simp [PointsWithin])
      fun i e he => hswept.input_within he).bind ?_
    rintro points t₃ ht₃ hg₃ ⟨hpoints, hnoting⟩
    refine (leadsTo_report ht₃ _).bind ?_
    rintro - t₄ - - rfl
    refine leadsTo_pure ht₃ ⟨?_, by simp⟩
    rintro a ⟨⟩
    exact ⟨start, s, hopened _ ht₃ (hg₂.trans hg₃), hends _ ht₃ hg₃, hswept.mono hg₃, hpoints,
      hnoting _ ht₃ (.refl _)⟩

/-- An analysis that ends with `a` is one of the function, in the table it leads to. -/
theorem exists_analysed {events events' : Array Event} {a : Analysis} (h : task.Regular R)
    (ht : t.WellFormed) (hresult : task.analyse events t = ((.ok a, events'), t')) :
    t'.WellFormed ∧ ∃ start s, Analysed R task t' start s a := by
  obtain ⟨ht', -, hr, -⟩ := leadsTo_outcome h ht events
  rw [hresult] at ht' hr
  exact ⟨ht', hr a rfl⟩

/-! ### Functions with a body -/

/-- A block `b` that can be reached has a position in the order. -/
theorem Task.exists_position (h : task.program.HasBody task.function)
    (hb : task.program.Reaches (task.program.function task.function).entry b) :
    ∃ i : Nat, task.order[i]? = some b := by
  rw [task.order_eq]
  exact List.getElem?_of_mem ((mem_reversePostOrder_iff h.closed).2 hb)

/-- A block `b` has one position only. -/
theorem Task.position_unique (h : task.program.HasBody task.function) {i j : Nat}
    (hi : task.order[i]? = some b) (hj : task.order[j]? = some b) : i = j := by
  have hnodup : task.order.Nodup := task.order_eq ▸ nodup_reversePostOrder h.closed
  obtain ⟨hlt, -⟩ := List.getElem?_eq_some_iff.1 hi
  exact (List.getElem?_inj hlt hnodup).1 (hi.trans hj.symm)

/-- The first block is the entry. -/
theorem Task.order_zero (h : task.program.HasBody task.function) :
    task.order[0]? = some (task.program.function task.function).entry := by
  rw [task.order_eq, ← List.head?_eq_getElem?]
  exact head?_reversePostOrder h.closed

theorem regular_of_hasBody {p : Program} {f : FunctionId} (h : p.HasBody f) (m : CheckModel)
    (limit : Nat) :
    ({ program := p, function := f, model := m.model, visitLimit := limit } : Task).Regular
      m.catalogue.rule where
  model := m.obeys
  params := h.built.nodup_params
  order := nodup_reversePostOrder h.closed

end FlowFacts
