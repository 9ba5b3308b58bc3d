import FlowFacts.Logic.Clause
import Mathlib.Tactic.Common

/-!
# What clauses ask for

A partial assignment stands for the total assignments that agree with it.  What a clause asks
for under the values so far says something about each of these: where a clause is in conflict
it is false, and where it forces a literal it is true only if the literal is.

## Main definitions

* `Agrees a ρ` — the total assignment `ρ` gives the values that `a` gives.
* `Clause.Below n clauses` — the variables of all clauses are below `n`.
* `Clause.Demand.Describes` — what a demand says about the literals of a clause.

## Main results

* `Clause.demand_describes` — what a clause asks for describes its literals.
* `Clause.holds_of_forced`, `Clause.not_holds_of_conflict` — so it is right to follow it.
-/

namespace FlowFacts

/-! ### Partial and total assignments -/

/-- The total assignment `ρ` gives the variables the values that `a` gives them. -/
def Agrees (a : PartialAssignment) (ρ : Nat → Bool) : Prop :=
  ∀ v b, a[v]? = some (some b) → ρ v = b

/-- The values `a` so far can be completed. -/
theorem exists_agrees (a : PartialAssignment) : ∃ ρ, Agrees a ρ := by
  refine ⟨fun v => (a[v]?.join).getD false, fun v b h => ?_⟩
  simp [h]

/-! ### Literals -/

namespace SatLiteral

@[simp] theorem holds_negate (ρ : Nat → Bool) (l : SatLiteral) :
    l.negate.holds ρ = !l.holds ρ := by
  simp only [negate, holds]
  cases ρ l.var <;> cases l.positive <;> rfl

@[simp] theorem var_negate (l : SatLiteral) : l.negate.var = l.var := rfl

/-- A literal `l` that has a truth value has it under every assignment that agrees with `a`. -/
theorem holds_of_value? {a : PartialAssignment} {ρ : Nat → Bool} {l : SatLiteral} {b : Bool}
    (ha : Agrees a ρ) (h : l.value? a = some b) : l.holds ρ = b := by
  unfold value? at h
  split at h
  · rename_i c hc
    rw [holds, ha _ _ hc]
    simpa using h
  · simp at h

/-- The variable of a literal `l` without a truth value has none itself, if it is in range. -/
theorem getElem?_of_value?_eq_none {a : PartialAssignment} {l : SatLiteral}
    (h : l.value? a = none) (hlt : l.var < a.size) : a[l.var]? = some none := by
  unfold value? at h
  split at h
  · simp at h
  · rename_i hc
    rw [Array.getElem?_eq_getElem hlt] at hc ⊢
    cases hx : a[l.var] with
    | none => rfl
    | some b => exact absurd (by rw [hx]) (hc b)

@[simp] theorem size_assign (a : PartialAssignment) (l : SatLiteral) :
    (l.assign a).size = a.size := by
  simp [assign]

@[simp] theorem size_unassign (a : PartialAssignment) (l : SatLiteral) :
    (l.unassign a).size = a.size := by
  simp [unassign]

end SatLiteral

namespace Clause

variable {a : PartialAssignment} {ρ : Nat → Bool} {c : Clause} {l : SatLiteral} {n : Nat}

/-! ### Clauses -/

@[simp] theorem holds_nil (ρ : Nat → Bool) : Clause.holds ρ [] = false := rfl

@[simp] theorem holds_cons (ρ : Nat → Bool) (l : SatLiteral) (c : Clause) :
    Clause.holds ρ (l :: c) = (l.holds ρ || Clause.holds ρ c) := rfl

theorem holds_eq_true_iff : holds ρ c = true ↔ ∃ l ∈ c, l.holds ρ = true := by
  rw [holds, List.any_eq_true]

/-- The variables of all `clauses` are below `n`. -/
def Below (n : Nat) (clauses : List Clause) : Prop := ∀ c ∈ clauses, ∀ l ∈ c, l.var < n

instance (n : Nat) (clauses : List Clause) : Decidable (Below n clauses) :=
  inferInstanceAs (Decidable (∀ c ∈ clauses, ∀ l ∈ c, l.var < n))

theorem Below.cons {clauses : List Clause} (hc : ∀ l ∈ c, l.var < n) (h : Below n clauses) :
    Below n (c :: clauses) := by
  intro d hd
  rcases List.mem_cons.1 hd with rfl | hd
  · exact hc
  · exact h d hd

theorem Below.reverse {clauses : List Clause} (h : Below n clauses) : Below n clauses.reverse :=
  fun c hc => h c (List.mem_reverse.1 hc)

/-! ### Demands -/

/-- What a demand says about the literals of the clause `c`. -/
def Demand.Describes (a : PartialAssignment) (c : Clause) : Demand → Prop
  | .satisfied => ∃ l ∈ c, l.value? a = some true
  | .conflict => ∀ l ∈ c, l.value? a = some false
  | .forced l => l ∈ c ∧ l.value? a = none ∧ ∀ m ∈ c, m = l ∨ m.value? a = some false
  | .unresolved => ∃ l ∈ c, l.value? a = none

/-- The literals of `c` without a value. -/
def openLiterals (a : PartialAssignment) (c : Clause) : Clause :=
  c.filter fun l => (l.value? a).isNone

theorem mem_openLiterals : l ∈ openLiterals a c ↔ l ∈ c ∧ l.value? a = none := by
  rw [openLiterals, List.mem_filter, Option.isNone_iff_eq_none]

/-- A clause `c` without a true literal, at its end.  The literals without a value are in `c` as
often as they were counted. -/
theorem describes_of_openLiterals (hfalse : ∀ m ∈ c, m.value? a ≠ some true) :
    (demandFrom a [] (openLiterals a c).getLast? (openLiterals a c).length).Describes a c := by
  have hother : ∀ m ∈ c, m ∉ openLiterals a c → m.value? a = some false := by
    intro m hm hopen
    cases hvalue : m.value? a with
    | none => exact absurd (mem_openLiterals.2 ⟨hm, hvalue⟩) hopen
    | some b =>
      cases b with
      | true => exact absurd hvalue (hfalse m hm)
      | false => rfl
  -- none is left, one, or more
  match hopen : openLiterals a c with
  | [] =>
    intro m hm
    apply hother m hm
    rw [hopen]
    exact List.not_mem_nil
  | [l] =>
    obtain ⟨hl, hnone⟩ := mem_openLiterals.1 (hopen ▸ List.mem_singleton_self l)
    refine ⟨hl, hnone, fun m hm => ?_⟩
    by_cases hml : m = l
    · exact Or.inl hml
    · apply Or.inr
      apply hother m hm
      rw [hopen, List.mem_singleton]
      exact hml
  | l :: m :: rest =>
    exact ⟨l, mem_openLiterals.1 (hopen ▸ List.mem_cons_self)⟩

/-- What is known of the literals in `front` is enough to go on. -/
theorem demandFrom_describes {rest : Clause} : ∀ {front : Clause},
    (∀ m ∈ front, m.value? a ≠ some true) →
      (demandFrom a rest (openLiterals a front).getLast? (openLiterals a front).length).Describes a
        (front ++ rest) := by
  induction rest with
  | nil =>
    intro front hfalse
    rw [List.append_nil]
    exact describes_of_openLiterals hfalse
  | cons l rest ih =>
    intro front hfalse
    -- the literal goes to those in front, unless it is true
    have hsnoc : l.value? a ≠ some true → ∀ m ∈ front ++ [l], m.value? a ≠ some true := by
      intro hl m hm
      rcases List.mem_append.1 hm with hm | hm
      · exact hfalse m hm
      · rw [List.mem_singleton.1 hm]
        exact hl
    have hnext : front ++ l :: rest = front ++ [l] ++ rest := by simp
    rw [demandFrom]
    cases hvalue : l.value? a with
    | none =>
      have hopen : openLiterals a (front ++ [l]) = openLiterals a front ++ [l] := by
        simp [openLiterals, hvalue]
      have hrest := ih (hsnoc (by simp [hvalue]))
      rw [hopen, List.getLast?_append, List.length_append, ← hnext] at hrest
      exact hrest
    | some b =>
      cases b with
      | true => exact ⟨l, List.mem_append_right _ List.mem_cons_self, hvalue⟩
      | false =>
        have hopen : openLiterals a (front ++ [l]) = openLiterals a front := by
          simp [openLiterals, hvalue]
        have hrest := ih (hsnoc (by simp [hvalue]))
        rw [hopen, ← hnext] at hrest
        exact hrest

/-- What the clause `c` asks for describes its literals. -/
theorem demand_describes (a : PartialAssignment) (c : Clause) : (c.demand a).Describes a c :=
  @demandFrom_describes a c [] fun _ hm => absurd hm List.not_mem_nil

/-- A clause `c` in conflict is false. -/
theorem not_holds_of_conflict (h : c.demand a = .conflict) (ha : Agrees a ρ) :
    holds ρ c ≠ true := by
  have hdescribes := demand_describes a c
  rw [h] at hdescribes
  intro hc
  obtain ⟨l, hl, htrue⟩ := holds_eq_true_iff.1 hc
  rw [SatLiteral.holds_of_value? ha (hdescribes l hl)] at htrue
  cases htrue

/-- A clause `c` is true only where the literal `l` is that it forces. -/
theorem holds_of_forced (h : c.demand a = .forced l) (ha : Agrees a ρ) (hc : holds ρ c = true) :
    l.holds ρ = true := by
  have hdescribes := demand_describes a c
  rw [h] at hdescribes
  obtain ⟨m, hm, htrue⟩ := holds_eq_true_iff.1 hc
  rcases hdescribes.2.2 m hm with rfl | hfalse
  · exact htrue
  · rw [SatLiteral.holds_of_value? ha hfalse] at htrue
    cases htrue

end Clause

end FlowFacts
