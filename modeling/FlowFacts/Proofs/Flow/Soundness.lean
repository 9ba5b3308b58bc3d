import FlowFacts.Proofs.Flow.Describes
import FlowFacts.Proofs.Source.Resolve

/-!
# The analysis is sound

When the search through the blocks of a function has settled, the environments it found
describe every store that an execution gets to.  The invariant of executions has two parts.
The environments before the next instruction describe the store.  And if an instruction has
assigned its result, then no formula in the environments before this instruction mentions the
atom of the result.

The second part is what lets an instruction of a loop assign its result again.  It holds from
the first time on: then the result has not been assigned, so a formula that mentioned its atom
would not be current.  After that time nothing has to be kept, since the environments before
an instruction do not depend on the execution.

## Main definitions

* `Precedes` — the environments before an instruction.
* `Tracked` — the invariant.

## Main results

* `Step.tracked`, `Run.tracked` — executions keep the invariant.
* `exists_point_of_run` — an annotation that an execution gets to has been noted, with an
  environment that describes the store.
-/

namespace FlowFacts

open FormulaTable Program

variable {c : Catalogue} {T : FormulaTable} {task : Task} {start : Environment} {sweep : Sweep}
  {a : Analysis} {s s' : State} {v w : ValueId} {e e' : Environment}

/-- The environment `e'` is one before the instruction `v`: the input of its block leads to it. -/
def Precedes (c : Catalogue) (T : FormulaTable) (task : Task) (sweep : Sweep) (v : ValueId)
    (e' : Environment) : Prop :=
  ∃ i b e before after, task.order[i]? = some b ∧ sweep.input? i = some e ∧
    (task.program.block b).instructions = before ++ v :: after ∧
    RunsThrough c.rule T task.program before e e'

/-- The invariant of executions, for a state `s`. -/
structure Tracked (c : Catalogue) (T : FormulaTable) (task : Task) (sweep : Sweep) (s : State) :
    Prop where
  /-- The block has been visited. -/
  visited : ∃ i e, task.order[i]? = some s.block ∧ sweep.input? i = some e
  /-- What the input of the block leads to describes the store. -/
  describes : ∀ {i e e'}, task.order[i]? = some s.block → sweep.input? i = some e →
    RunsThrough c.rule T task.program
      ((task.program.block s.block).instructions.take s.position) e e' →
    ∃ ρ, Describes T task.program e' s.store ρ
  /-- Before an instruction that has assigned its result, no formula mentions its atom. -/
  fresh : ∀ {w op}, task.program.operation? w = some op → (s.store w).isSome = true →
    ∀ e', Precedes c T task sweep w e' → task.program.isBool w = true →
      ∀ a, T.valueAtom? w = some a → Unmentioned T e' a

/-- The instructions of the block of `s`, around the next one `v`. -/
theorem State.instructions_eq {p : Program} (hv : s.instruction? p = some v) :
    (p.block s.block).instructions = (p.block s.block).instructions.take s.position ++
      v :: (p.block s.block).instructions.drop (s.position + 1) :=
  eq_take_append_cons_drop hv

/-- The environments `e'` before the next instruction `v` describe the store. -/
theorem Tracked.describes_of_precedes (hp : task.program.Built)
    (h : Tracked c T task sweep s) (hv : s.instruction? task.program = some v)
    (he' : Precedes c T task sweep v e') : ∃ ρ, Describes T task.program e' s.store ρ := by
  obtain ⟨i, b, e, before, after, hb, he, hlist, hrun⟩ := he'
  have hblock : b = s.block :=
    hp.block_unique (by rw [hlist]; simp) (State.mem_of_instruction? hv)
  subst hblock
  rw [hp.before_unique hlist (State.instructions_eq hv)] at hrun
  exact h.describes hb he hrun

/-- The environments `e'` before the next instruction `v` do not mention the atom of its result. -/
theorem Tracked.unmentioned (hp : task.program.Built) (h : Tracked c T task sweep s)
    (hv : s.instruction? task.program = some v) (he' : Precedes c T task sweep v e')
    (hbool : task.program.isBool v = true) (a : Atom) (ha : T.valueAtom? v = some a) :
    Unmentioned T e' a := by
  obtain ⟨op, hop⟩ := hp.exists_operation (State.mem_of_instruction? hv)
  cases hσ : s.store v with
  | some x => exact h.fresh hop (by rw [hσ]; rfl) e' he' hbool a ha
  | none =>
    -- a formula that mentions it says what the result is, but there is none yet
    obtain ⟨ρ, hd⟩ := h.describes_of_precedes hp hv he'
    intro w g hg hocc
    have hread := hd.current w g hg v a hbool ha hocc
    rw [read_of_not_constant (constant?_of_operation? hop), hσ] at hread
    cases hread

/-- What an environment `e'` that runs through one more instruction `v` comes from. -/
theorem RunsThrough.of_concat {R : Model.Rule} {p : Program} {vs : List ValueId}
    (h : RunsThrough R T p (vs ++ [v]) e e') :
    ∃ e₁, RunsThrough R T p vs e e₁ ∧ Stepped R T p v e₁ e' := by
  induction vs generalizing e with
  | nil =>
    cases h with
    | cons hstep hnil =>
      cases hnil
      exact ⟨e, .nil e, hstep⟩
  | cons w vs ih =>
    cases h with
    | cons hstep hrest =>
      obtain ⟨e₁, hrun, hlast⟩ := ih hrest
      exact ⟨e₁, .cons hstep hrun, hlast⟩

/-- The instruction `v` is taken. -/
theorem Tracked.take (hp : task.program.Built) (hT : T.WellFormed)
    (h : Tracked c T task sweep s) (hv : s.instruction? task.program = some v) {σ' : Store}
    (heffect : Effect task.program c v s.store σ') (hσ : s.store.Typed task.program)
    (hσ' : σ'.Typed task.program) :
    Tracked c T task sweep { s with position := s.position + 1, store := σ' } where
  visited := h.visited
  describes := by
    intro i e e' hb he hrun
    have htake : (task.program.block s.block).instructions.take (s.position + 1) =
        (task.program.block s.block).instructions.take s.position ++ [v] := by
      rw [List.take_add_one, show (task.program.block s.block).instructions[s.position]? = some v
        from hv, Option.toList_some]
    rw [htake] at hrun
    obtain ⟨e₁, hbefore, hstep⟩ := hrun.of_concat
    obtain ⟨ρ, hd⟩ := h.describes hb he hbefore
    have hpre : Precedes c T task sweep v e₁ :=
      ⟨i, s.block, e, _, _, hb, he, State.instructions_eq hv, hbefore⟩
    exact hstep.describes hp hT heffect hσ hσ' (h.unmentioned hp hv hpre) hd
  fresh := by
    intro w op hop hsome e' he' hbool a ha
    -- before `v` its atom is not mentioned, and of the others nothing is assigned
    by_cases hwv : w = v
    · subst hwv
      exact h.unmentioned hp hv he' hbool a ha
    · refine h.fresh hop ?_ e' he' hbool a ha
      cases heffect with
      | quiet => exact hsome
      | result =>
        have hsome : (Function.update s.store v _ w).isSome = true := hsome
        rwa [Function.update_of_ne hwv] at hsome

/-- An assignment to parameters is none to the result `v` of an instruction. -/
theorem assign_of_operation? {p : Program} (hp : p.Built) {op : Operation} {σ : Store}
    {target : Target} (hop : p.operation? v = some op) : p.assign target σ v = σ v := by
  rw [assign]
  split
  · next w hw =>
    obtain ⟨i, ty, hparam⟩ := hp.parameter_of_mem (List.of_mem_zip (mem_passed_of_lookup hw)).1
    obtain ⟨b, hb⟩ := operation?_eq_some_iff.1 hop
    rw [hparam] at hb
    cases hb
  · rfl

/-- Where an edge arrives at `b'`, its end `e` describes no more than the input does. -/
theorem Swept.exists_input (hswept : Swept c.rule task start T sweep [])
    (h : task.program.HasBody task.function) (hT : T.WellFormed) {i : Nat} {b b' : BlockId}
    {σ : Store} {ρ : Atom → Bool} (hb : task.order[i]? = some b)
    (hreach : task.program.Reaches (task.program.function task.function).entry b)
    (hedge : task.program.Edge b b') (he : sweep.edge? i b' = some e)
    (hd : Describes T task.program e σ ρ) :
    ∃ j e', task.order[j]? = some b' ∧ sweep.input? j = some e' ∧
      ∃ ρ', Describes T task.program e' σ ρ' := by
  obtain ⟨j, hj⟩ := Task.exists_position h (hreach.tail hedge)
  have hj₀ : j ≠ 0 := by
    rintro rfl
    rw [Task.order_zero h, Option.some.injEq] at hj
    exact h.not_edge_entry (hj ▸ hedge)
  obtain ⟨r, harrives, hsame⟩ := hswept.settled hj (by simp)
  have hjoined : JoinedAll T (task.incoming sweep b') r := by
    simpa [Task.Arrives, hj₀] using harrives T hT (.refl T)
  have hmem : e ∈ task.incoming sweep b' :=
    mem_incoming_iff.2 ⟨i, b, hb, h.built.mem_preds_of_edge hedge, he⟩
  obtain ⟨e₁, he₁, ρ₁, hd₁⟩ := hjoined.describes hT hmem hd
  obtain ⟨e', he', hee₁⟩ := hsame e₁ he₁
  exact ⟨j, e', hj, he', ρ₁, (hee₁ T hT (.refl T)).describes hd₁⟩

/-- A state `s` at the start of a block whose input describes the store. -/
theorem Tracked.of_input (h : task.program.HasBody task.function) {i : Nat} {ρ : Atom → Bool}
    (hpos : s.position = 0) (hi : task.order[i]? = some s.block) (he : sweep.input? i = some e)
    (hd : Describes T task.program e s.store ρ)
    (hfresh : ∀ {w op}, task.program.operation? w = some op → (s.store w).isSome = true →
      ∀ e', Precedes c T task sweep w e' → task.program.isBool w = true →
        ∀ a, T.valueAtom? w = some a → Unmentioned T e' a) :
    Tracked c T task sweep s where
  visited := ⟨i, e, hi, he⟩
  describes := by
    intro j e₁ e' hj he₁ hrun
    rw [Task.position_unique h hj hi, he, Option.some.injEq] at he₁
    subst he₁
    rw [hpos, List.take_zero] at hrun
    cases hrun
    exact ⟨ρ, hd⟩
  fresh := hfresh

/-- The block of `s` is left for `target`. -/
theorem Tracked.goto (hswept : Swept c.rule task start T sweep [])
    (hbody : task.program.HasBody task.function) (hT : T.WellFormed)
    (h : Tracked c T task sweep s) (hs : s.Proper task.program task.function)
    {op : Operation} {target : Target} (hv : s.instruction? task.program = some v)
    (hop : task.program.operation? v = some op) (hterm : op.isTerminator = true)
    (htaken : Taken task.program s.block s.store target) :
    Tracked c T task sweep (s.goto task.program target) := by
  have hresult : op.hasResult = false := by cases op <;> first | rfl | cases hterm
  -- the terminator is the last instruction, so nothing is left behind it
  have hend := h.take hbody.built hT hv (.quiet hop hresult) hs.typed hs.typed
  have hall : (task.program.block s.block).instructions.take (s.position + 1) =
      (task.program.block s.block).instructions := by
    obtain ⟨-, before, hlast⟩ := hbody.last_of_terminator (hs.mem_blocks hbody)
      (State.mem_of_instruction? hv) hop hterm
    have hbefore := hbody.built.before_unique hlast (State.instructions_eq hv)
    have hlen := congrArg List.length hbefore
    rw [List.length_take] at hlen
    refine List.take_of_length_le ?_
    have := (List.getElem?_eq_some_iff.1 hv).1
    rw [hlast, List.length_append, List.length_singleton] at *
    omega
  obtain ⟨i, e, hi, he⟩ := h.visited
  obtain ⟨e₁, hrun, hout⟩ := hswept.left hi he T hT (.refl T)
  obtain ⟨ρ, hd⟩ := hend.describes hi he (hall.symm ▸ hrun)
  have hedge : task.program.Edge s.block target.block := ⟨target, htaken.mem_successors, rfl⟩
  have hfits := hbody.fitsTarget (hs.mem_blocks hbody) htaken.mem_successors
  obtain ⟨e₂, hlookup, ρ₂, hd₂⟩ := hout.describes hbody.built hT htaken hs.typed hfits hd
  obtain ⟨j, e', hj, he', ρ', hd'⟩ := hswept.exists_input hbody hT hi hs.reaches hedge
    (Sweep.edge?_eq.trans hlookup) hd₂
  -- the results of instructions are assigned as before
  refine .of_input hbody rfl hj he' hd' ?_
  intro w op' hop' hsome
  have hstore : (s.goto task.program target).store w = s.store w :=
    assign_of_operation? hbody.built hop'
  exact h.fresh hop' (hstore ▸ hsome)

theorem Starts.tracked (ha : Analysed c.rule task T start sweep a)
    (hbody : task.program.HasBody task.function) (hT : T.WellFormed)
    (hs : Starts task.program task.function s) : Tracked c T task sweep s := by
  have hzero := Task.order_zero hbody
  obtain ⟨r, harrives, hsame⟩ := ha.swept.settled hzero (by simp)
  have hr : r = some start := by simpa [Task.Arrives] using harrives T hT (.refl T)
  obtain ⟨e, he, hsame⟩ := hsame start hr
  obtain ⟨ρ, hd⟩ := ha.opened.describes hT hs
  refine .of_input hbody hs.position (hs.block ▸ hzero) he
    ((hsame T hT (.refl T)).describes hd) ?_
  intro w op hop hsome
  -- the result of an instruction is no argument, so it has not been assigned
  have hnone : s.store w = none := by
    refine hs.others w fun x hx hxw => ?_
    obtain ⟨i, ty, hparam⟩ := hbody.built.parameter_of_mem
      (hbody.built.arg hbody.index_lt hx)
    obtain ⟨b, hb⟩ := operation?_eq_some_iff.1 hop
    rw [hxw, hb] at hparam
    cases hparam
  rw [hnone] at hsome
  cases hsome

/-! ### Executions -/

section

variable (ha : Analysed c.rule task T start sweep a)
  (hbody : task.program.HasBody task.function) (hT : T.WellFormed)
include ha hbody hT

theorem Step.tracked (h : Tracked c T task sweep s)
    (hs : s.Proper task.program task.function) (hstep : Step task.program c s s') :
    Tracked c T task sweep s' := by
  have hs' := hstep.proper hbody hs
  cases hstep with
  | annotate hop | nop hop =>
    obtain ⟨v, hv, hop⟩ := State.operation?_eq_some_iff.1 hop
    exact h.take hbody.built hT hv (.quiet hop rfl) hs.typed hs.typed
  | result hv hop hresult hread hty hcomputed hcheck =>
    exact h.take hbody.built hT hv (.result hop hresult hread hty hcomputed hcheck) hs.typed
      hs'.typed
  | branch hop hread =>
    obtain ⟨v, hv, hop⟩ := State.operation?_eq_some_iff.1 hop
    obtain ⟨hterm, -⟩ := hbody.last_of_terminator (hs.mem_blocks hbody)
      (State.mem_of_instruction? hv) hop rfl
    exact h.goto ha.swept hbody hT hs hv hop rfl (.branch hterm hread)
  | condBranch hop hcond hread =>
    obtain ⟨v, hv, hop⟩ := State.operation?_eq_some_iff.1 hop
    obtain ⟨hterm, -⟩ := hbody.last_of_terminator (hs.mem_blocks hbody)
      (State.mem_of_instruction? hv) hop rfl
    exact h.goto ha.swept hbody hT hs hv hop rfl (.condBranch hterm hcond hread)

theorem Run.tracked {s₀ : State} (hs₀ : Starts task.program task.function s₀)
    (hrun : Run task.program c s₀ s) : Tracked c T task sweep s := by
  induction hrun with
  | refl => exact hs₀.tracked ha hbody hT
  | tail hrun hstep ih => exact hstep.tracked ha hbody hT ih (Run.proper hbody hs₀ hrun)

/-- An annotation `name` that an execution gets to has been noted. -/
theorem Analysed.exists_point {s₀ : State} {name : String}
    (hs₀ : Starts task.program task.function s₀) (hrun : Run task.program c s₀ s)
    (hat : s.IsAt task.program name) :
    ∃ e, a.points.lookup name = some e ∧ ∃ ρ, Describes T task.program e s.store ρ := by
  have htracked := hrun.tracked ha hbody hT hs₀
  have hblock := (Run.proper hbody hs₀ hrun).mem_blocks hbody
  obtain ⟨v, hv, hop⟩ := State.operation?_eq_some_iff.1 hat
  have hmem := State.mem_of_instruction? hv
  have hfound : (a.points.lookup name).isSome := by
    obtain ⟨i, e, hi, he⟩ := htracked.visited
    exact ha.noted.found ⟨(s.block, i), List.mem_zipIdx_iff_getElem?.2 hi,
      by simp only [he, Option.isSome_some], v, hmem, hop⟩
  obtain ⟨e', he'⟩ := Option.isSome_iff_exists.1 hfound
  rcases ha.noted.origin he' with hnil | ⟨⟨b, i⟩, hi, e, he, before, w, after, hlist, hop', hrun'⟩
  · cases hnil
  -- names are used once, so the environment was noted at the instruction that comes next
  have hi : task.order[i]? = some b := List.mem_zipIdx_iff_getElem?.1 hi
  have hb : b ∈ (task.program.function task.function).blocks := by
    refine hbody.mem_blocks_of_reaches ((mem_reversePostOrder_iff hbody.closed).1 ?_)
    exact task.order_eq ▸ List.mem_of_getElem? hi
  have hwv : w = v := hbody.eq_of_point hb hblock (by simp [hlist]) hmem hop' hop
  subst hwv
  exact ⟨e', he', htracked.describes_of_precedes hbody.built hv
    ⟨i, b, e, before, after, hi, he, hlist, hrun'⟩⟩

end

/-- **Soundness.**  Take a program `p` that is accepted, a function `f` with a body, a model `m`
of checks and a `limit` for which the analysis has a result.  Whenever an execution of the
function gets to an annotation `name`, an environment has been noted for it, and some assignment
`ρ` of truth values to atoms satisfies its flow condition and gives every value that is bound the
value it has. -/
theorem exists_point_of_run {text : String} {p : Program} {f : FunctionId} {m : CheckModel}
    {limit : Nat} {t t' : FormulaTable} {events events' : Array Event} {a : Analysis}
    {s₀ s : State} {name : String} (hload : Source.load text = .ok p) (hf : f ∈ p.bodies)
    (ht : t.Reachable)
    (hresult : ({ program := p, function := f, model := m.model, visitLimit := limit } :
      Task).analyse events t = ((.ok a, events'), t'))
    (hs₀ : Starts p f s₀) (hrun : Run p m.catalogue s₀ s) (hat : s.IsAt p name) :
    ∃ e, a.points.lookup name = some e ∧ ∃ ρ, (t'.expr e.flow).eval ρ = true ∧
      ∀ v g, e.values.get? v = some g → p.read s.store v = some (.bool ((t'.expr g).eval ρ)) := by
  have hbody := Source.hasBody_of_load hload hf
  obtain ⟨hT, start, sweep, ha⟩ := exists_analysed (regular_of_hasBody hbody m limit) ht.wellFormed
    hresult
  obtain ⟨e, he, ρ, hd⟩ := ha.exists_point hbody hT hs₀ hrun hat
  exact ⟨e, he, ρ, hd.flow, hd.values⟩

/-- A loop that negates a truth value until it is false. -/
def negatingText : String :=
  "module \x7b fn f(x: bool) -> bool \x7b
    entry(): br loop(x)
    loop(y: bool): z = not y annotate here cbr z, loop(z), exit()
    exit(): ret bool y
  \x7d \x7d"

/-- The program of `negatingText`. -/
def negatingProgram : Program where
  modules := #[[⟨0⟩]]
  functions := #[
    { path := ["f"], args := [("x", ⟨0⟩)], returnType := .bool, entry := ⟨0⟩,
      others := [⟨1⟩, ⟨2⟩], isDeclaration := false }]
  blocks := #[
    { label := "entry", function := ⟨0⟩, params := [⟨0⟩], instructions := [⟨2⟩] },
    { label := "loop", function := ⟨0⟩, params := [⟨1⟩], instructions := [⟨3⟩, ⟨4⟩, ⟨5⟩],
      preds := [⟨0⟩, ⟨1⟩] },
    { label := "exit", function := ⟨0⟩, instructions := [⟨6⟩], preds := [⟨1⟩] }]
  values := #[.parameter ⟨0⟩ 0 .bool, .parameter ⟨1⟩ 0 .bool,
    .instruction ⟨0⟩ (.branch ⟨⟨1⟩, [⟨0⟩]⟩), .instruction ⟨1⟩ (.not ⟨1⟩),
    .instruction ⟨1⟩ (.annotate "here"),
    .instruction ⟨1⟩ (.condBranch ⟨3⟩ ⟨⟨1⟩, [⟨3⟩]⟩ ⟨⟨2⟩, []⟩), .instruction ⟨2⟩ (.ret ⟨1⟩ .bool)]

/-- The analysis of the function of `negatingText`, with the checks that are known by default. -/
def negatingTask : Task where
  program := negatingProgram
  function := ⟨0⟩
  model := CheckModel.model {}

/-- The start with a false argument. -/
def negatingStart : State where
  block := ⟨0⟩
  position := 0
  store v := if v = ⟨0⟩ then some (.bool false) else none

/-- The place at the annotation, in the first round. -/
def negatingFirst : State :=
  (negatingStart.goto negatingProgram ⟨⟨1⟩, [⟨0⟩]⟩).nextWith ⟨3⟩ (.bool true)

/-- The same place, in the second round. -/
def negatingSecond : State :=
  (negatingFirst.next.goto negatingProgram ⟨⟨1⟩, [⟨3⟩]⟩).nextWith ⟨3⟩ (.bool false)

theorem starts_negatingStart : Starts negatingProgram ⟨0⟩ negatingStart where
  block := rfl
  position := rfl
  args := by
    rintro x hx
    cases List.mem_singleton.1 hx
    exact ⟨.bool false, rfl, by decide⟩
  others v hv := by
    have hne : v ≠ ⟨0⟩ := (hv ("x", ⟨0⟩) List.mem_cons_self).symm
    exact if_neg hne

/-- The parameter, which is `x`, is negated. -/
theorem step_negating (c : Catalogue) {s : State} {x : Bool}
    (hv : s.instruction? negatingProgram = some ⟨3⟩)
    (hread : negatingProgram.read s.store ⟨1⟩ = some (.bool x)) :
    Step negatingProgram c s (s.nextWith ⟨3⟩ (.bool !x)) := by
  have hop : negatingProgram.operation? ⟨3⟩ = some (.not ⟨1⟩) := rfl
  have hty : negatingProgram.typeOf ⟨3⟩ = some .bool := by decide
  refine .result hv hop rfl ?_ hty ?_ ?_
  · simp [Operation.operands, hread]
  · simp [computed?, readBool?_of_read hread]
  · intro cond hcond
    obtain ⟨⟨callee, args, hcall, -⟩, -⟩ := mem_operands_of_condition? hcond
    rw [hop] at hcall
    cases hcall

theorem run_negatingSecond (c : Catalogue) :
    Run negatingProgram c negatingStart negatingSecond := by
  have henter : Step negatingProgram c negatingStart
      (negatingStart.goto negatingProgram ⟨⟨1⟩, [⟨0⟩]⟩) := .branch rfl (by decide)
  have hfirst := step_negating c (s := negatingStart.goto negatingProgram ⟨⟨1⟩, [⟨0⟩]⟩) (x := false)
    rfl rfl
  have hpoint : Step negatingProgram c negatingFirst negatingFirst.next := .annotate rfl
  have hop : negatingFirst.next.operation? negatingProgram =
      some (.condBranch ⟨3⟩ ⟨⟨1⟩, [⟨3⟩]⟩ ⟨⟨2⟩, []⟩) := rfl
  have hback : Step negatingProgram c negatingFirst.next
      (negatingFirst.next.goto negatingProgram ⟨⟨1⟩, [⟨3⟩]⟩) :=
    .condBranch (b := true) hop rfl (by decide)
  have hsecond := step_negating c (s := negatingFirst.next.goto negatingProgram ⟨⟨1⟩, [⟨3⟩]⟩)
    (x := true) rfl rfl
  exact ((((Relation.ReflTransGen.single henter).tail hfirst).tail hpoint).tail hback).tail hsecond

/-- In the second round of the loop, the environment noted at the annotation describes the
store, in which the negation of the parameter is false. -/
theorem negating_second_described :
    ∃ a events t', negatingTask.analyse #[] {} = ((.ok a, events), t') ∧
      Source.load negatingText = .ok negatingProgram ∧
      Starts negatingProgram ⟨0⟩ negatingStart ∧
      Run negatingProgram .standard negatingStart negatingSecond ∧
      negatingSecond.IsAt negatingProgram "here" ∧
      ∃ e, a.points.lookup "here" = some e ∧ ∃ ρ, (t'.expr e.flow).eval ρ = true ∧
        ∀ v g, e.values.get? v = some g →
          negatingProgram.read negatingSecond.store v = some (.bool ((t'.expr g).eval ρ)) := by
  have hload : Source.load negatingText = .ok negatingProgram := by decide +kernel
  have hok : (negatingTask.analyse #[] {}).1.1.isOk = true := by decide +kernel
  have hrun := run_negatingSecond .standard
  rcases hresult : negatingTask.analyse #[] {} with ⟨⟨r, events⟩, t'⟩
  rw [hresult] at hok
  cases r with
  | error => cases hok
  | ok a =>
    exact ⟨a, events, t', rfl, hload, starts_negatingStart, hrun, rfl,
      exists_point_of_run (m := {}) hload (by decide) .empty hresult starts_negatingStart hrun rfl⟩

end FlowFacts
