import FlowFacts.Proofs.Flow.Atoms
import FlowFacts.Proofs.Flow.Below
import Mathlib.Data.Fintype.BigOperators
import Mathlib.Data.Fintype.Pi

/-!
# Loops converge

If every value is used only where it is defined, the steps of an analysis are monotone, so
whatever arrives at a block is above what the block was visited with.  There are only finitely
many values that may be unbound, and only finitely many assignments to the atoms of the function
that may satisfy a flow condition, so a block can be visited only so often.

## Main definitions

* `Environment.weakness` — how little an environment says.
* `Climbing` — the invariant of the search.

## Main results

* `Below.weakness_lt` — an environment that is above another one says less.
* `SweepsTo.climbing` — what arrives at a block is above what it was visited with.
* `exists_limit` — with a limit that is high enough, an analysis has a result.
-/

namespace FlowFacts

open FormulaTable AnalysisM Program

variable {T : FormulaTable} {p : Program} {f : FunctionId} {e e₁ e₂ e' : Environment}
  {v w : ValueId} {b c : BlockId} {i j n : Nat} {S : ValueId → Prop} {task : Task}
  {catalogue : Catalogue} {start : Environment} {s : Sweep} {a : Atom}

/-! ### How little an environment says -/

/-- The values with numbers below `n` that `e` does not bind. -/
def Environment.unbound (e : Environment) (n : Nat) : Finset (Fin n) :=
  Finset.univ.filter fun i => e.values.get? ⟨i⟩ = none

/-- The assignment that `σ` gives to the atoms of the values below `n`, as such and at meetings. -/
def FormulaTable.assignment (T : FormulaTable) {n : Nat} (σ : Fin n × Bool → Bool) (a : Atom) :
    Bool :=
  decide (∃ i : Fin n, (T.valueAtom? ⟨i⟩ = some a ∧ σ (i, true) = true) ∨
    (T.mergeAtom? ⟨i⟩ = some a ∧ σ (i, false) = true))

/-- The assignments to the atoms of the values below `n` that satisfy the flow condition of `e`. -/
def Environment.models (e : Environment) (T : FormulaTable) (n : Nat) :
    Finset (Fin n × Bool → Bool) :=
  Finset.univ.filter fun σ => T.holds (T.assignment σ) e.flow = true

/-- How little `e` says: the number of values below `n` that are not bound, and of assignments
that satisfy the flow condition. -/
def Environment.weakness (e : Environment) (T : FormulaTable) (n : Nat) : Nat :=
  (e.unbound n).card + (e.models T n).card

theorem Environment.weakness_le (e : Environment) (T : FormulaTable) (n : Nat) :
    e.weakness T n ≤ n + 2 ^ (n * 2) := by
  have hunbound : (e.unbound n).card ≤ n := by
    simpa using Finset.card_le_univ (e.unbound n)
  have hmodels : (e.models T n).card ≤ 2 ^ (n * 2) := by
    simpa using Finset.card_le_univ (e.models T n)
  unfold weakness
  omega

/-- The assignment `ρ`, as far as the values below `n` are concerned. -/
def FormulaTable.restrict (T : FormulaTable) (n : Nat) (ρ : Atom → Bool) (x : Fin n × Bool) :
    Bool :=
  ((if x.2 then T.valueAtom? ⟨x.1⟩ else T.mergeAtom? ⟨x.1⟩).map ρ).getD false

/-- The assignment `ρ` can be restricted to the values below `n` without a change to their atoms. -/
theorem assignment_restrict (hS : ∀ v, S v → v.index < n)
    (ha : T.AtomOf S a) (ρ : Atom → Bool) : T.assignment (T.restrict n ρ) a = ρ a := by
  obtain ⟨⟨k⟩, hv, hatom⟩ := ha
  have hk : k < n := hS _ hv
  rw [assignment, Bool.eq_iff_iff, decide_eq_true_iff]
  constructor
  · rintro ⟨i, ⟨hi, hσ⟩ | ⟨hi, hσ⟩⟩
    · simpa [restrict, hi] using hσ
    · simpa [restrict, hi] using hσ
  · intro hρ
    refine ⟨⟨k, hk⟩, hatom.imp (fun h => ⟨h, ?_⟩) fun h => ⟨h, ?_⟩⟩
    · simp [restrict, h, hρ]
    · simp [restrict, h, hρ]

theorem holds_assignment_restrict (hS : ∀ v, S v → v.index < n)
    (he : e.About T S) (ρ : Atom → Bool) :
    T.holds (T.assignment (T.restrict n ρ)) e.flow = T.holds ρ e.flow :=
  holds_congr fun a ha => assignment_restrict hS (he.flow a ha) ρ

/-- An environment `e'` that is above `e`, and does not say the same, says less. -/
theorem Below.weakness_lt (hS : ∀ v, S v → v.index < n) (h : Below T e e')
    (he : e.About T S) (he' : e'.About T S) (hne : ¬ SaysTheSame T e e') :
    e.weakness T n < e'.weakness T n := by
  have hunbound : e.unbound n ⊆ e'.unbound n := by
    intro i hi
    rw [Environment.unbound, Finset.mem_filter] at hi ⊢
    refine ⟨hi.1, Option.eq_none_iff_forall_ne_some.2 fun g hg => ?_⟩
    cases hi.2.symm.trans (h.values _ g hg)
  have hmodels : e.models T n ⊆ e'.models T n := by
    intro σ hσ
    rw [Environment.models, Finset.mem_filter] at hσ ⊢
    exact ⟨hσ.1, h.flow _ hσ.2⟩
  unfold Environment.weakness
  by_cases hvalues : e.values = e'.values
  · -- the flow condition says less
    obtain ⟨ρ, hρ⟩ : ∃ ρ, T.holds ρ e.flow ≠ T.holds ρ e'.flow := by
      by_contra hall
      push Not at hall
      exact hne ⟨hvalues, hall⟩
    have hfalse : T.holds ρ e.flow = false := by
      by_contra htrue
      rw [Bool.not_eq_false] at htrue
      exact hρ (htrue.trans (h.flow ρ htrue).symm)
    have htrue : T.holds ρ e'.flow = true := by
      rw [hfalse] at hρ
      exact (Bool.eq_true_of_not_eq_false fun hfalse' => hρ hfalse'.symm)
    have hlt : (e.models T n).card < (e'.models T n).card := by
      apply Finset.card_lt_card
      refine ⟨hmodels, fun hsub => ?_⟩
      -- the assignment that only `e'` allows, cut down to the values below `n`, is one more
      -- model
      have hmem : T.restrict n ρ ∈ e'.models T n := by
        rw [Environment.models, Finset.mem_filter, holds_assignment_restrict hS he']
        exact ⟨Finset.mem_univ _, htrue⟩
      have hmem' := hsub hmem
      rw [Environment.models, Finset.mem_filter, holds_assignment_restrict hS he, hfalse] at hmem'
      cases hmem'.2
    have hle := Finset.card_le_card hunbound
    omega
  · -- a value is no longer bound
    obtain ⟨v, g, hg, hnone⟩ : ∃ v g, e.values.get? v = some g ∧ e'.values.get? v = none := by
      by_contra hall
      push Not at hall
      refine hvalues (Bindings.eq_of_get? fun v g => ⟨fun hg => ?_, h.values v g⟩)
      obtain ⟨g', hg'⟩ := Option.ne_none_iff_exists'.1 (hall v g hg)
      cases hg.symm.trans (h.values v g' hg')
      exact hg'
    have hlt : (e.unbound n).card < (e'.unbound n).card := by
      apply Finset.card_lt_card
      refine ⟨hunbound, fun hsub => ?_⟩
      have hmem : (⟨v.index, hS v (he.bound v g hg)⟩ : Fin n) ∈ e'.unbound n := by
        rw [Environment.unbound, Finset.mem_filter]
        exact ⟨Finset.mem_univ _, hnone⟩
      have hmem' := hsub hmem
      rw [Environment.unbound, Finset.mem_filter] at hmem'
      cases hg.symm.trans hmem'.2
    have hle := Finset.card_le_card hmodels
    omega

/-! ### What arrives at a block -/

/-- The environment `e` is below what the environments `es` say together. -/
structure BelowAll (T : FormulaTable) (e : Environment) (es : List Environment) : Prop where
  /-- What all of them bind is there. -/
  values : ∀ v g, (∀ x ∈ es, x.values.get? v = some g) → e.values.get? v = some g
  /-- One of their flow conditions holds. -/
  flow : ∀ ρ, T.holds ρ e.flow = true → ∃ x ∈ es, T.holds ρ x.flow = true

theorem BelowAll.mono {es es' : List Environment} (h : BelowAll T e es)
    (hes : ∀ x ∈ es, ∃ x' ∈ es', Below T x x') : BelowAll T e es' where
  values v g hg := by
    apply h.values
    intro x hx
    obtain ⟨x', hx', hle⟩ := hes x hx
    exact hle.values v g (hg x' hx')
  flow ρ hρ := by
    obtain ⟨x, hx, hflow⟩ := h.flow ρ hρ
    obtain ⟨x', hx', hle⟩ := hes x hx
    exact ⟨x', hx', hle.flow ρ hflow⟩

/-- The invariant of the search: what a block was visited with is below what its incoming edges
say, and the block was visited no more often than this says little. -/
structure Climbing (task : Task) (catalogue : Catalogue) (T : FormulaTable) (start : Environment)
    (n : Nat) (s : Sweep) : Prop where
  /-- The entry is visited with the start. -/
  first : ∀ {e}, s.input? 0 = some e → e = start
  /-- The incoming edges of other blocks are above. -/
  below : ∀ {i b e}, task.order[i]? = some b → i ≠ 0 → s.input? i = some e →
    BelowAll T e (task.incoming s b)
  /-- The edges from a block say what follows from its input. -/
  left : ∀ {i b e}, task.order[i]? = some b → s.input? i = some e →
    LeavesBy catalogue.rule T task.program b e (s.edgesFrom i)
  /-- Blocks that were not visited have no edges yet. -/
  unvisited : ∀ {i}, s.input? i = none → s.edgesFrom i = [] ∧ s.visitCount i = 0
  /-- Every visit said less than the one before. -/
  count : ∀ {i e}, s.input? i = some e → s.visitCount i ≤ e.weakness T n + 1

section Search

variable (hT : T.WellFormed) (hlocal : task.program.Local task.function)
  (hdisciplined : task.program.Disciplined task.function)
  (hopened : Opened T task.program task.function start) {edges : List (BlockId × Environment)}

include hT hlocal hdisciplined hopened

/-- What arrives at the block `b` is above the environment `e` that it was visited with. -/
theorem Climbing.below_of_arrives (hs : SweepsTo catalogue.rule task T start s)
    (h : Climbing task catalogue T start n s) (hb : task.order[i]? = some b)
    (he : s.input? i = some e) (harrives : task.Arrives T start s i b (some e')) :
    Below T e e' := by
  unfold Task.Arrives at harrives
  split at harrives
  · rename_i hi
    subst hi
    cases harrives
    rw [h.first he]
    exact .refl _
  · rename_i hi
    have hkeeps : task.Keeps catalogue.rule T start _ :=
      keeps_binds hlocal hT (hdisciplined.watched hlocal.toHasBody) hopened
    obtain ⟨hflow, hvalues⟩ := harrives.iff hT (fun _ => trivial)
      fun x hx => hkeeps.incoming hlocal.toHasBody hs hx
    have hbelow := h.below hb hi he
    exact ⟨fun v g hg => hbelow.values v g ((hvalues v g).1 hg),
      fun ρ hρ => (hflow ρ).2 (hbelow.flow ρ hρ)⟩

/-- What arrives along the edges to `c` only goes up when another block is visited. -/
theorem Climbing.incoming_visited (hs : SweepsTo catalogue.rule task T start s)
    (h : Climbing task catalogue T start n s) (hb : task.order[i]? = some b)
    (harrives : task.Arrives T start s i b (some e)) {pending : List Nat}
    (hleft : LeavesBy catalogue.rule T task.program b e edges) (hx : e₁ ∈ task.incoming s c) :
    ∃ x' ∈ task.incoming (s.visited i e edges pending) c, Below T e₁ x' := by
  obtain ⟨j, d, hd, hpred, hedge⟩ := mem_incoming_iff.1 hx
  rw [Sweep.edge?_eq] at hedge
  by_cases hj : j = i
  · subst hj
    cases hb.symm.trans hd
    -- the block was visited before, with less
    obtain ⟨e₀, he₀⟩ : ∃ e₀, s.input? j = some e₀ := by
      rw [← Option.ne_none_iff_exists']
      intro hnone
      simp [(h.unvisited hnone).1] at hedge
    have hbody := hlocal.toHasBody
    have hkeeps : task.Keeps catalogue.rule T start _ :=
      keeps_binds hlocal hT (hdisciplined.watched hbody) hopened
    have hinputs := hkeeps.sweepsTo hbody hs
    have hle := h.below_of_arrives hT hlocal hdisciplined hopened hs hb he₀ harrives
    have hedges := (h.left hb he₀).monotone (hdisciplined.watched hbody) (fun _ => trivial) hbody hT
      (Task.reached_of_position hbody hb) hleft hle (hinputs.1 hb he₀)
      (hkeeps.arrives hbody hb hinputs.2 harrives)
    obtain ⟨x', hx', hle'⟩ := exists_lookup_of_forall₂ hedges hedge
    refine ⟨x', mem_incoming_iff.2 ⟨j, b, hb, hpred, ?_⟩, hle'⟩
    rw [Sweep.edge?_eq, (hs.visited hb j).2.1, if_pos rfl]
    exact hx'
  · -- the edges of the other blocks stay as they are
    refine ⟨e₁, mem_incoming_iff.2 ⟨j, d, hd, hpred, ?_⟩, .refl e₁⟩
    rw [Sweep.edge?_eq, (hs.visited hb j).2.1, if_neg hj]
    exact hedge

/-- What arrives at a block `b` other than the entry is below what its incoming edges say. -/
theorem SweepsTo.belowAll_of_arrives (hs : SweepsTo catalogue.rule task T start s) (hi : i ≠ 0)
    (harrives : task.Arrives T start s i b (some e)) : BelowAll T e (task.incoming s b) := by
  have hkeeps : task.Keeps catalogue.rule T start _ :=
    keeps_binds hlocal hT (hdisciplined.watched hlocal.toHasBody) hopened
  rw [Task.Arrives, if_neg hi] at harrives
  obtain ⟨hflow, hvalues⟩ := harrives.iff hT (fun _ => trivial)
    fun x hx => hkeeps.incoming hlocal.toHasBody hs hx
  exact ⟨fun v g hg => (hvalues v g).2 hg, fun ρ hρ => (hflow ρ).1 hρ⟩

variable (hn : ∀ v, task.program.Owns task.function v → v.index < n)

include hn

/-- A visit of `b` with `e` that is due says less than each of those before it. -/
theorem Climbing.visitCount_le_weakness (hs : SweepsTo catalogue.rule task T start s)
    (h : Climbing task catalogue T start n s) (hb : task.order[i]? = some b)
    (harrives : task.Arrives T start s i b (some e)) (hchanged : s.Changed T i e) :
    s.visitCount i ≤ e.weakness T n := by
  cases hinput : s.input? i with
  | none =>
    rw [(h.unvisited hinput).2]
    exact Nat.zero_le _
  | some e₀ =>
    have hbody := hlocal.toHasBody
    have habout : task.Keeps catalogue.rule T start _ := keeps_about hlocal hT hopened
    have hinputs := habout.sweepsTo hbody hs
    have hle := h.below_of_arrives hT hlocal hdisciplined hopened hs hb hinput harrives
    have hlt := hle.weakness_lt hn (hinputs.1 hb hinput)
      (habout.arrives hbody hb hinputs.2 harrives) (hchanged e₀ hinput)
    have hcount := h.count hinput
    omega

/-- A visit of `b` with `e` keeps the invariant. -/
theorem Climbing.visit (hs : SweepsTo catalogue.rule task T start s)
    (h : Climbing task catalogue T start n s) (hb : task.order[i]? = some b)
    (harrives : task.Arrives T start s i b (some e)) (hchanged : s.Changed T i e)
    {pending : List Nat} (hleft : LeavesBy catalogue.rule T task.program b e edges) :
    Climbing task catalogue T start n (s.visited i e edges pending) := by
  have hup : ∀ {c}, ∀ x ∈ task.incoming s c,
      ∃ x' ∈ task.incoming (s.visited i e edges pending) c, Below T x x' := fun x hx =>
    h.incoming_visited hT hlocal hdisciplined hopened hs hb harrives hleft hx
  refine ⟨?_, ?_, ?_, ?_, ?_⟩
  · -- the entry is visited with the start, each time
    intro e' he'
    rw [(hs.visited hb 0).1] at he'
    split at he'
    · rename_i hi
      cases he'
      rw [Task.Arrives, if_pos hi.symm, Option.some.injEq] at harrives
      exact harrives
    · exact h.first he'
  · intro j c e' hc hj he'
    rw [(hs.visited hb j).1] at he'
    split at he'
    · -- the block itself: its input is what its edges said before the visit
      rename_i hji
      subst hji
      cases hb.symm.trans hc
      cases he'
      exact (hs.belowAll_of_arrives hT hlocal hdisciplined hopened hj harrives).mono hup
    · exact (h.below hc hj he').mono hup
  · intro j c e' hc he'
    rw [(hs.visited hb j).1] at he'
    rw [(hs.visited hb j).2.1]
    by_cases hji : j = i
    · subst hji
      rw [if_pos rfl, Option.some.injEq] at he'
      rw [if_pos rfl]
      cases hb.symm.trans hc
      exact he' ▸ hleft
    · rw [if_neg hji] at he' ⊢
      exact h.left hc he'
  · intro j hnone
    rw [(hs.visited hb j).1] at hnone
    rw [(hs.visited hb j).2.1, (hs.visited hb j).2.2]
    by_cases hji : j = i
    · rw [if_pos hji] at hnone
      cases hnone
    · rw [if_neg hji] at hnone ⊢
      rw [if_neg hji]
      exact h.unvisited hnone
  · intro j e' he'
    rw [(hs.visited hb j).1] at he'
    rw [(hs.visited hb j).2.2]
    by_cases hji : j = i
    · subst hji
      rw [if_pos rfl, Option.some.injEq] at he'
      rw [if_pos rfl, ← he']
      exact Nat.succ_le_succ
        (h.visitCount_le_weakness hT hlocal hdisciplined hopened hn hs hb harrives hchanged)
    · rw [if_neg hji] at he' ⊢
      exact h.count he'

/-- The invariant holds in every state `s` of a search. -/
theorem SweepsTo.climbing (hs : SweepsTo catalogue.rule task T start s) :
    Climbing task catalogue T start n s := by
  induction hs with
  | start =>
    constructor <;>
      simp [Sweep.input?_start, Sweep.edgesFrom_start, Sweep.visitCount_start]
  | visit hs hb harrives hchanged hleft ih =>
    exact ih.visit hT hlocal hdisciplined hopened hn hs hb harrives hchanged hleft
  | look _ ih => exact ⟨ih.first, ih.below, ih.left, ih.unvisited, ih.count⟩

/-- No block is due to be visited so often that the limit stops it. -/
theorem Task.not_exhausted (hlimit : n + 2 ^ (n * 2) < task.visitLimit) :
    ¬ task.Exhausted catalogue.rule T start := by
  rintro ⟨s, i, b, e, hs, hb, harrives, hchanged, hcount⟩
  have hclimbing := hs.climbing hT hlocal hdisciplined hopened hn
  have hvisits := hclimbing.visitCount_le_weakness hT hlocal hdisciplined hopened hn hs hb
    harrives hchanged
  have hbound := e.weakness_le T n
  omega

end Search

theorem Program.Owns.lt (hbuilt : p.Built) (h : p.Owns f v) : v.index < p.values.size := by
  obtain ⟨b, -, hv | hv⟩ := h
  · obtain ⟨i, hi⟩ := List.getElem?_of_mem hv
    exact (hbuilt.parameter hi).1
  · exact (hbuilt.instruction hv).1

/-- **Loops converge.**  Take a program `p` that is accepted, a function `f` with a body in which
every operand is defined where it is used, and a model `m` of checks, strict or not.  There is a
number such that the analysis has a result for every limit from this number on, whatever table it
starts with. -/
theorem exists_limit {text : String} {p : Program} {f : FunctionId}
    (hload : Source.load text = .ok p) (hf : f ∈ p.bodies) (hdisciplined : p.Disciplined f)
    (m : CheckModel) : ∃ n, ∀ limit, n ≤ limit → ∀ (events : Array Event) (t : FormulaTable),
      t.Reachable → ∃ result events' t',
        ({ program := p, function := f, model := m.model, visitLimit := limit } :
          Task).analyse events t = ((.ok result, events'), t') := by
  have hlocal := Source.local_of_load hload hf
  refine ⟨p.values.size + 2 ^ (p.values.size * 2) + 1, fun limit hlimit events t ht => ?_⟩
  obtain ⟨hT, -, -, herror⟩ := leadsTo_outcome (regular_of_hasBody hlocal.toHasBody m limit)
    ht.wellFormed events
  rcases hresult : ({ program := p, function := f, model := m.model, visitLimit := limit } :
    Task).analyse events t with ⟨⟨r, events'⟩, t'⟩
  rw [hresult] at hT herror
  cases r with
  | ok result => exact ⟨result, events', t', rfl⟩
  | error err =>
    rcases herror err rfl with hdecl | ⟨start, hopened, hexhausted⟩
    · have hbody := (List.mem_filter.1 hf).2
      simp [hdecl] at hbody
    · exact absurd hexhausted (Task.not_exhausted hT hlocal hdisciplined hopened
        (fun v hv => hv.lt hlocal.built) (Nat.lt_of_succ_le hlimit))

theorem load_negatingText : Source.load negatingText = .ok negatingProgram := by decide +kernel

/-- In the loop that negates a truth value, every operand is defined where it is used. -/
theorem disciplined_negating : negatingProgram.Disciplined ⟨0⟩ := by
  have hbuilt := (Source.local_of_load (f := ⟨0⟩) load_negatingText (by decide)).built
  -- the exit is entered from the loop only
  have hexit : ∀ k, negatingProgram.Dominates ⟨0⟩ ⟨1⟩ ⟨2⟩ k := by
    intro k
    refine dominates_of_edges (by decide) fun b hedge met hwalk => hwalk.mem_of_params ?_
    have hpred : b ∈ [(⟨1⟩ : BlockId)] := hbuilt.mem_preds_of_edge hedge
    cases List.mem_singleton.1 hpred
    decide
  intro b hb k v op hv hop w hw _ met hwalk
  have hblocks : b ∈ [(⟨0⟩ : BlockId), ⟨1⟩, ⟨2⟩] := hb
  simp only [List.mem_cons, List.not_mem_nil, or_false] at hblocks
  -- the three blocks, instruction by instruction
  rcases hblocks with rfl | rfl | rfl
  · have hk : k < 1 := (List.getElem?_eq_some_iff.1 hv).1
    obtain rfl : k = 0 := by omega
    cases hv
    cases hop
    exact hwalk.mem_of_params hw
  · have hk : k < 3 := (List.getElem?_eq_some_iff.1 hv).1
    obtain rfl | rfl | rfl : k = 0 ∨ k = 1 ∨ k = 2 := by omega
    · cases hv
      cases hop
      exact hwalk.mem_of_params hw
    · cases hv
      cases hop
      cases hw
    · cases hv
      cases hop
      have hw : w = ⟨3⟩ := by simpa [Operation.operands] using hw
      exact hw ▸ hwalk.mem_of_lt Nat.zero_lt_two rfl
  · have hk : k < 1 := (List.getElem?_eq_some_iff.1 hv).1
    obtain rfl : k = 0 := by omega
    cases hv
    cases hop
    have hw : w = ⟨1⟩ := by simpa [Operation.operands] using hw
    exact hw ▸ hexit 0 met hwalk

/-- So its analysis has a result from some limit on, with all warnings. -/
theorem negating_converges :
    ∃ n, ∀ limit, n ≤ limit → ∀ (events : Array Event) (t : FormulaTable), t.Reachable →
      ∃ result events' t', ({ program := negatingProgram, function := ⟨0⟩,
                              model := CheckModel.model { strict := true },
                              visitLimit := limit } : Task).analyse events t =
        ((.ok result, events'), t') :=
  exists_limit load_negatingText (by decide) disciplined_negating { strict := true }

end FlowFacts
