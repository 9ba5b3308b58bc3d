import FlowFacts.Proofs.Program.Body

/-!
# Dominance

A place of a function is a position in one of its blocks, before the instruction there.  A walk
from the entry to a place passes instructions and edges, and defines the values on its way: the
results of the instructions, and the parameters of the blocks it enters.  A value dominates a
place if every walk to the place defines it.

What a walk meets first is met by the shortest walks: there is a walk to an instruction on
which the instruction was not met before, and a walk to a block on which its parameters were
not defined before.  So a value that is computed from the result of an instruction cannot
dominate the place before the instruction.

## Main definitions

* `Program.Walks` — walks from the entry to a place.
* `Program.Dominates` — every walk to a place defines a value.
* `Program.Disciplined` — every operand dominates the places where it is used.

## Main results

* `Dominates.of_step`, `Dominates.of_cross` — dominance, one step back.
* `exists_walks_before`, `exists_walks_into` — first meetings.
* `Walks.mem_of_dominates` — a walk that defines a value defines what is used there.
-/

namespace FlowFacts

namespace Program

variable {p : Program} {f : FunctionId} {b c : BlockId} {k : Nat} {v w u : ValueId}
  {met : List ValueId}

/-- A walk from the entry of `f` to the place before an instruction.  The values that it defines
are listed, the latest first. -/
inductive Walks (p : Program) (f : FunctionId) : List ValueId → BlockId → Nat → Prop
  /-- The walk starts at the entry, whose parameters are the arguments. -/
  | start : Walks p f (p.block (p.function f).entry).params (p.function f).entry 0
  /-- It passes an instruction. -/
  | step {met : List ValueId} {b : BlockId} {k : Nat} {v : ValueId} : Walks p f met b k →
      (p.block b).instructions[k]? = some v → Walks p f (v :: met) b (k + 1)
  /-- It leaves a block along an edge. -/
  | cross {met : List ValueId} {b c : BlockId} :
      Walks p f met b (p.block b).instructions.length → p.Edge b c →
      Walks p f ((p.block c).params ++ met) c 0

/-- Every walk to position `k` of `b` defines the value `v`. -/
def Dominates (p : Program) (f : FunctionId) (v : ValueId) (b : BlockId) (k : Nat) : Prop :=
  ∀ met, p.Walks f met b k → v ∈ met

/-- The definition of every operand of `f` dominates its use; constants need none. -/
def Disciplined (p : Program) (f : FunctionId) : Prop :=
  ∀ b ∈ (p.function f).blocks, ∀ k v op, (p.block b).instructions[k]? = some v →
    p.operation? v = some op → ∀ w ∈ op.operands, p.constant? w = none → p.Dominates f w b k

/-! ### Walks -/

/-- A walk to the start of `b` goes on to any place in it. -/
theorem Walks.exists_of_le (h : p.Walks f met b 0) :
    ∀ {k : Nat}, k ≤ (p.block b).instructions.length → ∃ met', p.Walks f met' b k := by
  intro k
  induction k with
  | zero => exact fun _ => ⟨met, h⟩
  | succ k ih =>
    intro hk
    obtain ⟨met', hmet'⟩ := ih (by omega)
    exact ⟨_, hmet'.step (List.getElem?_eq_getElem (by omega))⟩

/-- There is a walk to every block `b` that can be reached. -/
theorem exists_walks (h : p.Reaches (p.function f).entry b) : ∃ met, p.Walks f met b 0 := by
  induction h with
  | refl => exact ⟨_, .start⟩
  | tail _ hedge ih =>
    obtain ⟨met, hmet⟩ := ih
    obtain ⟨met', hmet'⟩ := hmet.exists_of_le (Nat.le_refl _)
    exact ⟨_, hmet'.cross hedge⟩

/-- A walk to `b` shows that it can be reached. -/
theorem Walks.reaches (h : p.Walks f met b k) : p.Reaches (p.function f).entry b := by
  induction h with
  | start => exact .refl
  | step _ _ ih => exact ih
  | cross _ hedge ih => exact ih.tail hedge

/-- A parameter `v` of the entry is defined on every walk. -/
theorem Walks.mem_of_entry (h : p.Walks f met b k)
    (hv : v ∈ (p.block (p.function f).entry).params) : v ∈ met := by
  induction h with
  | start => exact hv
  | step _ _ ih => exact List.mem_cons_of_mem _ ih
  | cross _ _ ih => exact List.mem_append_right _ ih

/-- A parameter `v` of the block that a walk leads to was defined when the block was entered. -/
theorem Walks.mem_of_params (h : p.Walks f met b k) (hv : v ∈ (p.block b).params) : v ∈ met := by
  induction h with
  | start => exact hv
  | step _ _ ih => exact List.mem_cons_of_mem _ (ih hv)
  | cross _ _ _ => exact List.mem_append_left _ hv

/-- What dominates the ends of all blocks that lead to `c` dominates `c`. -/
theorem dominates_of_edges (hc : c ≠ (p.function f).entry)
    (h : ∀ b, p.Edge b c → p.Dominates f v b (p.block b).instructions.length) :
    p.Dominates f v c k := by
  intro met hmet
  induction hmet with
  | start => exact absurd rfl hc
  | step _ _ ih => exact List.mem_cons_of_mem _ (ih hc h)
  | @cross met b c hwalk hedge _ => exact List.mem_append_right _ (h b hedge met hwalk)

/-- An instruction `v` before a place was met on the way. -/
theorem Walks.mem_of_lt (h : p.Walks f met b k) {j : Nat} (hj : j < k)
    (hv : (p.block b).instructions[j]? = some v) : v ∈ met := by
  induction h with
  | start => omega
  | @step met b k w _ hw ih =>
    by_cases hjk : j = k
    · subst hjk
      cases hv.symm.trans hw
      exact List.mem_cons_self
    · exact List.mem_cons_of_mem _ (ih (by omega) hv)
  | cross _ _ => omega

/-- An instruction `v` of the entry dominates all other blocks. -/
theorem dominates_of_mem_entry (hv : v ∈ (p.block (p.function f).entry).instructions)
    (hb : b ≠ (p.function f).entry) : p.Dominates f v b k := by
  intro met hmet
  induction hmet with
  | start => exact absurd rfl hb
  | step _ _ ih => exact List.mem_cons_of_mem _ (ih hb)
  | @cross met b' c hwalk _ ih =>
    apply List.mem_append_right
    by_cases hb' : b' = (p.function f).entry
    · -- the entry is left behind its last instruction
      subst hb'
      obtain ⟨j, hj⟩ := List.getElem?_of_mem hv
      exact hwalk.mem_of_lt (List.getElem?_eq_some_iff.1 hj).1 hj
    · exact ih hb'

/-! ### One step back -/

theorem Dominates.of_start (h : p.Dominates f v (p.function f).entry 0) :
    v ∈ (p.block (p.function f).entry).params :=
  h _ .start

/-- What dominates the place after an instruction `w` dominates the place before it, unless it is
the instruction. -/
theorem Dominates.of_step (h : p.Dominates f v b (k + 1))
    (hw : (p.block b).instructions[k]? = some w) (hne : v ≠ w) : p.Dominates f v b k := by
  intro met hmet
  exact (List.mem_cons.1 (h _ (hmet.step hw))).resolve_left hne

/-- What dominates the start of `c` dominates the end of a block `b` that leads there, unless it
is a parameter. -/
theorem Dominates.of_cross (h : p.Dominates f v c 0) (hedge : p.Edge b c)
    (hne : v ∉ (p.block c).params) :
    p.Dominates f v b (p.block b).instructions.length := by
  intro met hmet
  exact (List.mem_append.1 (h _ (hmet.cross hedge))).resolve_left hne

/-! ### First meetings -/

/-- A walk that has met an instruction `v` came by the place before it. -/
theorem Walks.shorter_of_mem (hp : p.Built) (h : p.Walks f met c k)
    (hv : v ∈ (p.block b).instructions) (hmem : v ∈ met) :
    ∃ met' j, met'.length < met.length ∧ (p.block b).instructions[j]? = some v ∧
      p.Walks f met' b j := by
  induction h with
  | start => exact absurd hmem (hp.not_mem_params hv)
  | @step met c k w hwalk hw ih =>
    by_cases hvw : v = w
    · subst hvw
      have hbc : b = c := hp.block_unique hv (List.mem_of_getElem? hw)
      exact ⟨met, k, by simp, hbc ▸ hw, hbc ▸ hwalk⟩
    · obtain ⟨met', j, hlen, hj, hwalk'⟩ := ih ((List.mem_cons.1 hmem).resolve_left hvw)
      exact ⟨met', j, by simp only [List.length_cons]; omega, hj, hwalk'⟩
  | @cross met b' c hwalk hedge ih =>
    have hrest := (List.mem_append.1 hmem).resolve_left (hp.not_mem_params hv)
    obtain ⟨met', j, hlen, hj, hwalk'⟩ := ih hrest
    exact ⟨met', j, by simp only [List.length_append]; omega, hj, hwalk'⟩

/-- A position of `b` is found by its instruction `v`. -/
theorem Built.position_unique (hp : p.Built) {i j : Nat}
    (hi : (p.block b).instructions[i]? = some v) (hj : (p.block b).instructions[j]? = some v) :
    i = j := by
  obtain ⟨hlt, -⟩ := List.getElem?_eq_some_iff.1 hi
  exact (List.getElem?_inj hlt (hp.nodup_instructions b)).1 (hi.trans hj.symm)

/-- An instruction `v` that a walk leads to is met for the first time on some walk. -/
theorem exists_walks_before (hp : p.Built) (hv : (p.block b).instructions[k]? = some v)
    (h : p.Walks f met b k) : ∃ met', p.Walks f met' b k ∧ v ∉ met' := by
  -- induction on the length: a walk that met the instruction has a shorter one inside
  generalize hn : met.length = n
  induction n using Nat.strongRecOn generalizing met with
  | _ n ih =>
    by_cases hmem : v ∈ met
    · obtain ⟨met', j, hlen, hj, hwalk⟩ := h.shorter_of_mem hp (List.mem_of_getElem? hv) hmem
      rw [hp.position_unique hj hv] at hwalk
      exact ih met'.length (hn ▸ hlen) hwalk rfl
    · exact ⟨met, h, hmem⟩

/-- A walk that has defined a parameter `v` of `b` came to the start of the block. -/
theorem Walks.shorter_of_param (hp : p.Built) (h : p.Walks f met c k)
    (hv : v ∈ (p.block b).params) (hmem : v ∈ met) :
    ∃ met', met'.length ≤ met.length ∧ p.Walks f met' b 0 := by
  induction h with
  | start =>
    have hb : b = (p.function f).entry := hp.param_unique hv hmem
    subst hb
    exact ⟨_, Nat.le_refl _, .start⟩
  | @step met c k w hwalk hw ih =>
    have hvw : v ≠ w := by
      rintro rfl
      exact hp.not_mem_params (List.mem_of_getElem? hw) hv
    obtain ⟨met', hlen, hwalk'⟩ := ih ((List.mem_cons.1 hmem).resolve_left hvw)
    exact ⟨met', by simp only [List.length_cons]; omega, hwalk'⟩
  | @cross met b' c hwalk hedge ih =>
    by_cases hparam : v ∈ (p.block c).params
    · have hb : b = c := hp.param_unique hv hparam
      subst hb
      exact ⟨_, Nat.le_refl _, hwalk.cross hedge⟩
    · obtain ⟨met', hlen, hwalk'⟩ := ih ((List.mem_append.1 hmem).resolve_left hparam)
      exact ⟨met', by simp only [List.length_append]; omega, hwalk'⟩

/-- A block `c` that a walk enters along an edge is entered for the first time on some walk,
before which none of its parameters was defined. -/
theorem exists_walks_into (hp : p.Built) (hc : c ≠ (p.function f).entry)
    (h : p.Walks f met c 0) : ∃ b met', p.Walks f met' b (p.block b).instructions.length ∧
      p.Edge b c ∧ ∀ v ∈ (p.block c).params, v ∉ met' := by
  generalize hn : met.length = n
  induction n using Nat.strongRecOn generalizing met with
  | _ n ih =>
    cases h with
    | start => exact absurd rfl hc
    | @cross met b _ hwalk hedge =>
      by_cases hfirst : ∀ v ∈ (p.block c).params, v ∉ met
      · exact ⟨b, met, hwalk, hedge, hfirst⟩
      · -- a parameter was defined before, so the walk came here before
        push Not at hfirst
        obtain ⟨v, hv, hmem⟩ := hfirst
        obtain ⟨met', hlen, hwalk'⟩ := hwalk.shorter_of_param hp hv hmem
        have hpos : 0 < (p.block c).params.length := List.length_pos_of_mem hv
        rw [List.length_append] at hn
        exact ih met'.length (by omega) hwalk' rfl

/-! ### What is defined on a walk -/

/-- A walk that meets an instruction `v` has defined the values `w` that dominate the place
before it. -/
theorem Walks.mem_of_dominates (hp : p.Built) (h : p.Walks f met c k)
    (hv : v ∈ (p.block b).instructions) (hmem : v ∈ met)
    (hdom : ∀ j, (p.block b).instructions[j]? = some v → p.Dominates f w b j) : w ∈ met := by
  induction h with
  | start => exact absurd hmem (hp.not_mem_params hv)
  | @step met c k u hwalk hu ih =>
    by_cases hvu : v = u
    · subst hvu
      have hbc : b = c := hp.block_unique hv (List.mem_of_getElem? hu)
      subst hbc
      exact List.mem_cons_of_mem v (hdom k hu met hwalk)
    · exact List.mem_cons_of_mem u (ih ((List.mem_cons.1 hmem).resolve_left hvu))
  | @cross met b' c hwalk hedge ih =>
    have hrest := (List.mem_append.1 hmem).resolve_left (hp.not_mem_params hv)
    exact List.mem_append_right _ (ih hrest)

/-- A value `v` that a walk defines is a parameter or an instruction of a block that can be
reached. -/
theorem Walks.exists_block (h : p.Walks f met c k) (hmem : v ∈ met) :
    ∃ b, p.Reaches (p.function f).entry b ∧
      (v ∈ (p.block b).params ∨ v ∈ (p.block b).instructions) := by
  induction h with
  | start => exact ⟨_, .refl, Or.inl hmem⟩
  | @step met b k u hwalk hu ih =>
    rcases List.mem_cons.1 hmem with rfl | hmem
    · exact ⟨b, hwalk.reaches, Or.inr (List.mem_of_getElem? hu)⟩
    · exact ih hmem
  | @cross met b c hwalk hedge ih =>
    rcases List.mem_append.1 hmem with hmem | hmem
    · exact ⟨c, hwalk.reaches.tail hedge, Or.inl hmem⟩
    · exact ih hmem

end Program

end FlowFacts
