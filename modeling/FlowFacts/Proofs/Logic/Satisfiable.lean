import FlowFacts.Logic.Satisfiable
import FlowFacts.Proofs.Logic.Search
import FlowFacts.Proofs.Logic.Substitution

/-!
# The answers about satisfiability are right

The clauses of a formula define one variable after another.  Values that satisfy them give
every literal the truth value of its formula, as soon as they agree about the atoms; and an
assignment of the atoms extends to the variables one definition at a time, since each
definition is about a variable that nothing before it mentions.  Both are kept by each
step of the encoding, and together with the search for values they make the answers exact.

The encoding is bounded by the levels of a formula, and the search by the rounds that clauses can
take.  Neither bound shows: with more levels the clauses are the same, and without a bound on its
rounds the search ends with the same answer.

## Main definitions

* `Encoding.Right` — the invariant of the encoding.
* `FormulaTable.Settles` — the solver ends with an answer, without a bound.

## Main results

* `encodeWithin_spec` — the encoding of a formula keeps the invariant.
* `FormulaTable.settles_satisfiable` — the solver ends with the answer it gives.
* `FormulaTable.satisfiable_iff` — satisfiability is decided.
* `satisfiable_and_valid_iff` — so is validity, on every table that can be reached.
-/

namespace FlowFacts

open FormulaM FormulaTable

variable {t : FormulaTable} {f g x y : Formula} {e e' : Encoding} {l lx ly : SatLiteral}
  {ρ : Atom → Bool} {τ τ' : Nat → Bool} {cs : List Clause}

namespace Encoding

/-! ### What an encoding says -/

/-- The literal of `f`, if it is done. -/
def literal? (e : Encoding) (f : Formula) : Option SatLiteral := e.literals[f.index]?.join

/-- The values `τ` of the variables satisfy all clauses. -/
def Solved (e : Encoding) (τ : Nat → Bool) : Prop := ∀ c ∈ e.clauses, Clause.holds τ c = true

/-- The literals of the formulas done have under `τ` the truth values that the formulas have
under `ρ`. -/
def Reflects (e : Encoding) (t : FormulaTable) (ρ : Atom → Bool) (τ : Nat → Bool) : Prop :=
  ∀ f l, e.literal? f = some l → l.holds τ = t.holds ρ f

/-- The assignment `ρ` gives the atoms the truth values that `τ` gives their literals. -/
def AtomsMatch (e : Encoding) (t : FormulaTable) (ρ : Atom → Bool) (τ : Nat → Bool) : Prop :=
  ∀ f l a, e.literal? f = some l → t.node f = .atom a → ρ a = l.holds τ

/-- The clauses of `e` define what the literals of the formulas done have to be. -/
structure Right (e : Encoding) (t : FormulaTable) : Prop where
  /-- Clauses are about variables in use. -/
  below : Clause.Below e.vars e.clauses
  /-- So are literals. -/
  literal_lt : ∀ f l, e.literal? f = some l → l.var < e.vars
  /-- Values that satisfy the clauses determine the formulas. -/
  sound : ∀ ρ τ, e.Solved τ → e.AtomsMatch t ρ τ → e.Reflects t ρ τ
  /-- Every assignment of the atoms can be extended to the variables. -/
  complete : ∀ ρ, ∃ τ, e.Solved τ ∧ e.Reflects t ρ τ

theorem literal?_replicate (n : Nat) (f : Formula) :
    literal? { literals := Array.replicate n none } f = none := by
  simp only [literal?, Array.getElem?_replicate]
  split <;> rfl

/-- Nothing is done at the start. -/
theorem right_start (t : FormulaTable) (n : Nat) :
    Right { literals := Array.replicate n none } t where
  below := by simp [Clause.Below]
  literal_lt f l h := by simp [literal?_replicate] at h
  sound ρ τ _ _ f l h := by simp [literal?_replicate] at h
  complete ρ := ⟨fun _ => false, by simp [Solved],
    fun f l h => by simp [literal?_replicate] at h⟩

theorem literal?_remember_self (hf : f.index < e.literals.size) :
    (remember f (l, e)).2.literal? f = some l := by
  simp [remember, literal?, hf]

theorem literal?_remember_of_ne (hne : g ≠ f) :
    (remember f (l, e)).2.literal? g = e.literal? g := by
  have hidx : f.index ≠ g.index := fun h => hne (Formula.eq_of_index_eq h.symm)
  simp [remember, literal?, Array.getElem?_setIfInBounds_ne hidx]

@[simp] theorem holds_positive (τ : Nat → Bool) (v : Nat) :
    SatLiteral.holds τ { var := v, positive := true } = τ v := beq_true _

/-- A literal `l` only looks at its variable. -/
theorem holds_congr (h : τ l.var = τ' l.var) : l.holds τ = l.holds τ' := by
  rw [SatLiteral.holds, SatLiteral.holds, h]

/-- A clause `c` over old variables does not notice new ones. -/
theorem clause_holds_congr {n : Nat} {c : Clause} (hc : ∀ l ∈ c, l.var < n)
    (h : ∀ v < n, τ v = τ' v) : Clause.holds τ c = Clause.holds τ' c := by
  induction c with
  | nil => rfl
  | cons l c ih =>
    rw [Clause.holds_cons, Clause.holds_cons, holds_congr (h _ (hc l List.mem_cons_self)),
      ih fun l' hl' => hc l' (List.mem_cons_of_mem _ hl')]

/-! ### The clauses of the connectives -/

theorem and_clauses (v x y : SatLiteral) :
    (∀ c ∈ [[v.negate, x], [v.negate, y], [v, x.negate, y.negate]], Clause.holds τ c = true) ↔
      v.holds τ = (x.holds τ && y.holds τ) := by
  simp only [List.forall_mem_cons, Clause.holds_cons, SatLiteral.holds_negate]
  cases v.holds τ <;> cases x.holds τ <;> cases y.holds τ <;> simp

theorem or_clauses (v x y : SatLiteral) :
    (∀ c ∈ [[v.negate, x, y], [v, x.negate], [v, y.negate]], Clause.holds τ c = true) ↔
      v.holds τ = (x.holds τ || y.holds τ) := by
  simp only [List.forall_mem_cons, Clause.holds_cons, SatLiteral.holds_negate]
  cases v.holds τ <;> cases x.holds τ <;> cases y.holds τ <;> simp

theorem equals_clauses (v x y : SatLiteral) :
    (∀ c ∈ [[v.negate, x.negate, y], [v.negate, x, y.negate], [v, x, y],
      [v, x.negate, y.negate]], Clause.holds τ c = true) ↔
      v.holds τ = (x.holds τ == y.holds τ) := by
  simp only [List.forall_mem_cons, Clause.holds_cons, SatLiteral.holds_negate]
  cases v.holds τ <;> cases x.holds τ <;> cases y.holds τ <;> simp

/-! ### One more formula -/

/-- Finishing `f` keeps the invariant, if its new clauses `cs` define its literal: they force its
truth value, and they can be met by choosing new variables only. -/
theorem Right.remember (h : e.Right t) (hf : f.index < e.literals.size) (hnew : e.literal? f = none)
    {vars : Nat} (hvars : e.vars ≤ vars) (hl : l.var < vars) (hcs : Clause.Below vars cs)
    (hsound : ∀ ρ τ, (∀ c ∈ cs, Clause.holds τ c = true) → e.Reflects t ρ τ →
      (∀ a, t.node f = .atom a → ρ a = l.holds τ) → l.holds τ = t.holds ρ f)
    (hcomplete : ∀ ρ τ, e.Reflects t ρ τ → ∃ τ', (∀ v < e.vars, τ v = τ' v) ∧
      (∀ c ∈ cs, Clause.holds τ' c = true) ∧ l.holds τ' = t.holds ρ f) :
    Right (Encoding.remember f (l, { e with vars, clauses := cs ++ e.clauses })).2 t := by
  have hself : (Encoding.remember f
      (l, { e with vars, clauses := cs ++ e.clauses })).2.literal? f = some l :=
    literal?_remember_self hf
  have hother : ∀ g, g ≠ f → (Encoding.remember f
      (l, { e with vars, clauses := cs ++ e.clauses })).2.literal? g = e.literal? g :=
    fun g hg => literal?_remember_of_ne hg
  refine ⟨?_, ?_, ?_, ?_⟩
  · intro c hc l' hl'
    rcases List.mem_append.1 hc with hc | hc
    · exact hcs c hc l' hl'
    · exact Nat.lt_of_lt_of_le (h.below c hc l' hl') hvars
  · intro g l' hl'
    by_cases hg : g = f
    · rw [hg, hself] at hl'
      exact Option.some.inj hl' ▸ hl
    · rw [hother g hg] at hl'
      exact Nat.lt_of_lt_of_le (h.literal_lt g l' hl') hvars
  · -- sound: the old clauses determine the formulas before, and the new ones determine `f`
    intro ρ τ hτ hatoms
    have hold : e.Reflects t ρ τ := by
      refine h.sound ρ τ (fun c hc => hτ c (List.mem_append_right _ hc)) ?_
      intro g l' a hl' ha
      have hg : g ≠ f := by
        rintro rfl
        simp [hnew] at hl'
      exact hatoms g l' a ((hother g hg).trans hl') ha
    intro g l' hl'
    by_cases hg : g = f
    · rw [hg, hself] at hl'
      cases hl'
      rw [hg]
      exact hsound ρ τ (fun c hc => hτ c (List.mem_append_left _ hc)) hold
        fun a ha => hatoms f l a hself ha
    · exact hold g l' ((hother g hg).symm.trans hl')
  · -- complete: the values for the old clauses, and new ones for the new variables
    intro ρ
    obtain ⟨τ, hτ, hold⟩ := h.complete ρ
    obtain ⟨τ', hagree, hcs', hl'⟩ := hcomplete ρ τ hold
    refine ⟨τ', ?_, ?_⟩
    · intro c hc
      rcases List.mem_append.1 hc with hc | hc
      · exact hcs' c hc
      · rw [← clause_holds_congr (h.below c hc) hagree]
        exact hτ c hc
    · intro g l₁ hl₁
      by_cases hg : g = f
      · rw [hg, hself] at hl₁
        cases hl₁
        rw [hg, hl']
      · rw [hother g hg] at hl₁
        rw [← holds_congr (hagree _ (h.literal_lt g l₁ hl₁))]
        exact hold g l₁ hl₁

/-- The formula `f` is finished by defining a variable: the clauses `cs` say that the literal has
the truth value that the old variables give the formula. -/
theorem Right.define (h : e.Right t) (hf : f.index < e.literals.size) (hnew : e.literal? f = none)
    (hl : l.var = e.vars) (hcs : Clause.Below (e.vars + 1) cs) (value : (Nat → Bool) → Bool)
    (hlocal : ∀ τ τ', (∀ v < e.vars, τ v = τ' v) → value τ = value τ')
    (hdef : ∀ τ, (∀ c ∈ cs, Clause.holds τ c = true) ↔ l.holds τ = value τ)
    (hvalue : ∀ ρ τ, e.Reflects t ρ τ → value τ = t.holds ρ f) :
    Right (Encoding.remember f
      (l, { e with vars := e.vars + 1, clauses := cs ++ e.clauses })).2 t := by
  refine h.remember hf hnew (Nat.le_succ _) (by omega) hcs ?_ ?_
  · intro ρ τ hτ hold _
    rw [(hdef τ).1 hτ, hvalue ρ τ hold]
  · intro ρ τ hold
    -- the one new variable gets the value that makes the literal right
    let τ' := Function.update τ e.vars (value τ == l.positive)
    have hagree : ∀ v < e.vars, τ v = τ' v := fun v hv =>
      (Function.update_of_ne (Nat.ne_of_lt hv) _ _).symm
    have hlit : l.holds τ' = value τ := by
      simp only [SatLiteral.holds, τ', hl, Function.update_self]
      cases value τ <;> cases l.positive <;> rfl
    refine ⟨τ', hagree, (hdef τ').2 ?_, hlit.trans (hvalue ρ τ hold)⟩
    rw [hlit, hlocal τ τ' hagree]

end Encoding

/-! ### A whole formula -/

/-- What encoding `f` leads to: its literal is known, and literals of later formulas are what
they were. -/
structure Encoded (t : FormulaTable) (f : Formula) (e : Encoding)
    (r : SatLiteral × Encoding) : Prop where
  /-- The invariant holds. -/
  right : r.2.Right t
  /-- The places for literals are the same. -/
  size : r.2.literals.size = e.literals.size
  /-- The formula is done. -/
  found : r.2.literal? f = some r.1
  /-- Literals stay. -/
  keeps : ∀ g l, e.literal? g = some l → r.2.literal? g = some l
  /-- Later formulas are not touched. -/
  frame : ∀ g, f.index < g.index → r.2.literal? g = e.literal? g

/-- Finishing a formula `f` whose operands are done. -/
theorem Encoded.remember {vars : Nat} (cs : List Clause) (hf : f.index < e.literals.size)
    (hnew : e.literal? f = none)
    (h : (Encoding.remember f (l, { e with vars, clauses := cs ++ e.clauses })).2.Right t) :
    Encoded t f e (Encoding.remember f (l, { e with vars, clauses := cs ++ e.clauses })) where
  right := h
  size := by simp [Encoding.remember]
  found := Encoding.literal?_remember_self hf
  keeps g l' hg := by
    have hne : g ≠ f := by
      rintro rfl
      simp [hnew] at hg
    rw [Encoding.literal?_remember_of_ne hne]
    exact hg
  frame g hg := by
    have hne : g ≠ f := by
      rintro rfl
      exact Nat.lt_irrefl _ hg
    rw [Encoding.literal?_remember_of_ne hne]
    rfl

/-- The operand `x` first, then the formula `f`. -/
theorem Encoded.trans {r r' : SatLiteral × Encoding} (h : Encoded t x e r)
    (hx : x.index < f.index) (h' : Encoded t f r.2 r') : Encoded t f e r' where
  right := h'.right
  size := h'.size.trans h.size
  found := h'.found
  keeps g l hg := h'.keeps g l (h.keeps g l hg)
  frame g hg := (h'.frame g hg).trans (h.frame g (Nat.lt_trans hx hg))

/-- An atom `a` is finished by a new variable, which may have any value. -/
theorem Encoding.Right.encoded_atom (he : e.Right t) (ht : t.WellFormed)
    (hf : f.index < e.literals.size) (hnew : e.literal? f = none) {a : Atom}
    (hnode : t.node f = .atom a) : Encoded t f e (Encoding.remember f e.newVar) := by
  have hholds : ∀ ρ, t.holds ρ f = ρ a := (means_of_node_atom ht hnode).holds
  refine Encoded.remember [] hf hnew (he.remember hf hnew (Nat.le_succ _) (Nat.lt_succ_self _)
    (by simp [Clause.Below]) ?_ ?_)
  · intro ρ τ _ _ ha
    rw [hholds, ha a hnode]
  · intro ρ τ _
    refine ⟨Function.update τ e.vars (ρ a), fun v hv => ?_, by simp, ?_⟩
    · rw [Function.update_of_ne (Nat.ne_of_lt hv)]
    · rw [Encoding.holds_positive, Function.update_self, hholds]

/-- A truth value `b` is finished by a variable that a clause gives this value. -/
theorem Encoding.Right.encoded_literal (he : e.Right t) (ht : t.WellFormed)
    (hf : f.index < e.literals.size) (hnew : e.literal? f = none) {b : Bool}
    (hnode : t.node f = .literal b) : Encoded t f e (Encoding.remember f (e.literal b)) := by
  refine Encoded.remember _ hf hnew (he.define hf hnew (by cases b <;> rfl) ?_
    (fun _ => b) (fun _ _ _ => rfl) ?_ ?_)
  · simp [Clause.Below]
  · intro τ
    cases b <;> simp [SatLiteral.holds, SatLiteral.negate]
  · intro ρ τ _
    rw [holds_eq ht, hnode, Node.value]

/-- A negation `f` is finished without a clause, by the literal that says the opposite. -/
theorem Encoded.negate {r : SatLiteral × Encoding} (hx : Encoded t x e r)
    (hxf : x.index < f.index) (hf : f.index < e.literals.size) (hnew : e.literal? f = none)
    (hnot : ∀ ρ, t.holds ρ f = !t.holds ρ x) :
    Encoded t f e (Encoding.remember f (r.1.negate, r.2)) := by
  have hf' : f.index < r.2.literals.size := by rw [hx.size]; exact hf
  have hnew' : r.2.literal? f = none := (hx.frame f hxf).trans hnew
  have hholds : ∀ {ρ τ}, r.2.Reflects t ρ τ → r.1.negate.holds τ = t.holds ρ f := by
    intro ρ τ hold
    rw [SatLiteral.holds_negate, hold x _ hx.found, hnot]
  refine hx.trans hxf (Encoded.remember [] hf' hnew' (hx.right.remember hf' hnew'
    (Nat.le_refl _) ?_ (by simp [Clause.Below]) ?_ ?_))
  · rw [SatLiteral.var_negate]
    exact hx.right.literal_lt x _ hx.found
  · exact fun ρ τ _ hold _ => hholds hold
  · exact fun ρ τ hold => ⟨τ, fun _ _ => rfl, by simp, hholds hold⟩

/-- A connective `op` with two operands is finished by clauses `cs` that say what it is. -/
theorem Encoded.binary {rx ry : SatLiteral × Encoding} (hx : Encoded t x e rx)
    (hy : Encoded t y rx.2 ry) (hxf : x.index < f.index) (hyf : y.index < f.index)
    (hf : f.index < e.literals.size) (hnew : e.literal? f = none) (op : Bool → Bool → Bool)
    (hop : ∀ ρ, t.holds ρ f = op (t.holds ρ x) (t.holds ρ y))
    (hvars : ∀ c ∈ cs, ∀ l ∈ c, l.var = ry.2.vars ∨ l.var = rx.1.var ∨ l.var = ry.1.var)
    (hdef : ∀ τ, (∀ c ∈ cs, Clause.holds τ c = true) ↔
      SatLiteral.holds τ { var := ry.2.vars, positive := true } =
        op (rx.1.holds τ) (ry.1.holds τ)) :
    Encoded t f e (Encoding.remember f ({ var := ry.2.vars, positive := true },
      { ry.2 with vars := ry.2.vars + 1, clauses := cs ++ ry.2.clauses })) := by
  have hxlit : ry.2.literal? x = some rx.1 := hy.keeps x _ hx.found
  have hxlt := hy.right.literal_lt x _ hxlit
  have hylt := hy.right.literal_lt y _ hy.found
  have hf' : f.index < ry.2.literals.size := by rw [hy.size, hx.size]; exact hf
  have hnew' : ry.2.literal? f = none := by
    rw [hy.frame f hyf, hx.frame f hxf, hnew]
  refine hx.trans hxf (hy.trans hyf (Encoded.remember _ hf' hnew' ?_))
  refine hy.right.define hf' hnew' rfl ?_ (fun τ => op (rx.1.holds τ) (ry.1.holds τ)) ?_ ?_ ?_
  · intro c hc l hl
    rcases hvars c hc l hl with h | h | h <;> omega
  · intro τ τ' h
    simp only [Encoding.holds_congr (h _ hxlt), Encoding.holds_congr (h _ hylt)]
  · exact hdef
  · intro ρ τ hold
    simp only [hold x _ hxlit, hold y _ hy.found, hop ρ]

/-- The encoding of `f` keeps the invariant and knows the literal of the formula. -/
theorem encodeWithin_spec (ht : t.WellFormed) : ∀ {n : Nat} {f : Formula} {e : Encoding},
    f.index < n → f.index < e.literals.size → e.Right t →
      Encoded t f e (t.encodeWithin n f e) := by
  intro n
  induction n with
  | zero => intro f e hn; exact absurd hn (Nat.not_lt_zero _)
  | succ n ih =>
    intro f e hn hf he
    rw [encodeWithin]
    split
    · rename_i l hl
      exact ⟨he, rfl, hl, fun _ _ h => h, fun _ _ => rfl⟩
    · rename_i hnew
      -- both operands of a connective, one after the other
      have operands : ∀ {x y : Formula}, (t.node f).children = [x, y] →
          x.index < f.index ∧ y.index < f.index ∧
            Encoded t x e (t.encodeWithin n x e) ∧
            Encoded t y (t.encodeWithin n x e).2
              (t.encodeWithin n y (t.encodeWithin n x e).2) := by
        intro x y hchildren
        have hx : x.index < f.index := ht.child_lt (by simp [hchildren])
        have hy : y.index < f.index := ht.child_lt (by simp [hchildren])
        have hex := ih (f := x) (e := e) (by omega) (by omega) he
        exact ⟨hx, hy, hex, ih (by omega) (by rw [hex.size]; omega) hex.right⟩
      split
      · rename_i a hn'
        exact he.encoded_atom ht hf hnew hn'
      · rename_i b hn'
        exact he.encoded_literal ht hf hnew hn'
      · rename_i x hn'
        have hx : x.index < f.index := ht.child_lt (by simp [hn', Node.children])
        refine (ih (by omega) (by omega) he).negate hx hf hnew fun ρ => ?_
        rw [holds_eq ht, hn', Node.value]
      · rename_i x y hn'
        obtain ⟨hx, hy, hex, hey⟩ := operands (by rw [hn', Node.children])
        refine hex.binary hey hx hy hf hnew and (fun ρ => ?_) (by simp)
          fun τ => Encoding.and_clauses _ _ _
        rw [holds_eq ht, hn', Node.value]
      · rename_i x y hn'
        obtain ⟨hx, hy, hex, hey⟩ := operands (by rw [hn', Node.children])
        refine hex.binary hey hx hy hf hnew or (fun ρ => ?_) (by simp)
          fun τ => Encoding.or_clauses _ _ _
        rw [holds_eq ht, hn', Node.value]
      · rename_i x y hn'
        obtain ⟨hx, hy, hex, hey⟩ := operands (by rw [hn', Node.children])
        refine hex.binary hey hx hy hf hnew (fun b c => !b || c) (fun ρ => ?_)
          (by simp) fun τ => ?_
        · rw [holds_eq ht, hn', Node.value]
        · rw [← SatLiteral.holds_negate]
          exact Encoding.or_clauses _ _ _
      · rename_i x y hn'
        obtain ⟨hx, hy, hex, hey⟩ := operands (by rw [hn', Node.children])
        refine hex.binary hey hx hy hf hnew (· == ·) (fun ρ => ?_) (by simp)
          fun τ => Encoding.equals_clauses _ _ _
        rw [holds_eq ht, hn', Node.value]

/-- More levels than `f` has do not change its clauses. -/
theorem encodeWithin_eq_of_lt (ht : t.WellFormed) : ∀ {n m : Nat} {f : Formula} {e : Encoding},
    f.index < n → f.index < m → t.encodeWithin n f e = t.encodeWithin m f e := by
  intro n
  induction n with
  | zero => intro m f e hn; exact absurd hn (Nat.not_lt_zero _)
  | succ n ih =>
    intro m f e hn hm
    obtain ⟨m, rfl⟩ : ∃ k, m = k + 1 := ⟨m - 1, by omega⟩
    have operand : ∀ {x : Formula} {e : Encoding}, x ∈ (t.node f).children →
        t.encodeWithin n x e = t.encodeWithin m x e := by
      intro x e hx
      have hlt := ht.child_lt hx
      exact ih (by omega) (by omega)
    rw [encodeWithin, encodeWithin]
    cases e.literals[f.index]?.join with
    | some l => rfl
    | none =>
      cases hnode : t.node f with
      | atom | literal => rfl
      | not x => simp only [operand (x := x) (by simp [hnode, Node.children])]
      | and x y | or x y | implies x y | equals x y =>
        simp only [operand (x := x) (by simp [hnode, Node.children]),
          operand (x := y) (by simp [hnode, Node.children])]

/-! ### The two questions -/

/-- The search that decides `f`, of which `n` levels are encoded. -/
def FormulaTable.searchWithin (t : FormulaTable) (n : Nat) (f : Formula) : Search :=
  let r := t.encodeWithin n f { literals := Array.replicate (f.index + 1) none }
  Search.start r.2.vars ([r.1] :: r.2.clauses).reverse

/-- The solver ends with an answer on `f`.  A truth value is its own answer.  For any other
formula the search ends, after any number of rounds, however many levels beyond those of the
formula are encoded. -/
inductive FormulaTable.Settles (t : FormulaTable) (f : Formula) : Bool → Prop
  /-- The formula is a truth value. -/
  | literal {b : Bool} : t.literal? f = some b → Settles t f b
  /-- The search ends. -/
  | search {answer : Bool} : t.literal? f = none →
      (∀ n, f.index < n → (t.searchWithin n f).Ends answer) → Settles t f answer

theorem encoded_encode (ht : t.WellFormed) (f : Formula) :
    Encoded t f { literals := Array.replicate (f.index + 1) none } (t.encode f) :=
  encodeWithin_spec ht (Nat.lt_succ_self _) (by simp) (Encoding.right_start t _)

/-- The clauses of `f`, with the one that asks for it, are about variables in use. -/
theorem below_encode (ht : t.WellFormed) (f : Formula) :
    Clause.Below (t.encode f).2.vars ([(t.encode f).1] :: (t.encode f).2.clauses).reverse := by
  have h := encoded_encode ht f
  have hroot := h.right.literal_lt f _ h.found
  exact (h.right.below.cons (c := [(t.encode f).1]) (by simpa using hroot)).reverse

/-- The solver ends on `f` with the answer that it gives. -/
theorem FormulaTable.settles_satisfiable (ht : t.WellFormed) (f : Formula) :
    t.Settles f (t.satisfiable f) := by
  rw [satisfiable]
  split
  · rename_i b hb
    exact .literal hb
  · rename_i hnone
    refine .search hnone fun n hn => ?_
    rw [searchWithin, encodeWithin_eq_of_lt ht hn (Nat.lt_succ_self f.index)]
    exact (Clause.ends_satisfiable (below_encode ht f)).1

/-- Values `τ` of the variables give each atom a truth value: an atom has one formula. -/
theorem exists_atomsMatch (ht : t.WellFormed) (e : Encoding) (τ : Nat → Bool) :
    ∃ ρ, e.AtomsMatch t ρ τ := by
  classical
  refine ⟨fun a => decide (∃ f l, t.node f = .atom a ∧ e.literal? f = some l ∧
    l.holds τ = true), fun f l a hl ha => ?_⟩
  rw [Bool.eq_iff_iff, decide_eq_true_iff]
  constructor
  · rintro ⟨g, l', hg, hl', hholds⟩
    rw [ht.eq_of_node_atom hg ha, hl] at hl'
    cases hl'
    exact hholds
  · intro hholds
    exact ⟨f, l, ha, hl, hholds⟩

/-- The formula `f` is found satisfiable exactly if some assignment makes it true. -/
theorem FormulaTable.satisfiable_iff (ht : t.WellFormed) (f : Formula) :
    t.satisfiable f = true ↔ ∃ ρ, t.holds ρ f = true := by
  rw [satisfiable]
  split
  · rename_i b hb
    have hholds : ∀ ρ, t.holds ρ f = b := fun ρ => by
      rw [holds_eq ht, node_of_literal? hb, Node.value]
    constructor
    · intro hb
      exact ⟨fun _ => false, (hholds _).trans hb⟩
    · -- a truth value is true everywhere or nowhere
      rintro ⟨ρ, hρ⟩
      rw [← hholds ρ, hρ]
  · have h := encoded_encode ht f
    rw [(Clause.ends_satisfiable (below_encode ht f)).2]
    simp only [List.mem_reverse, List.mem_cons, forall_eq_or_imp, Clause.holds_cons,
      Clause.holds_nil, Bool.or_false]
    constructor
    · -- values of the variables make an assignment of the atoms
      rintro ⟨τ, hτ, hsolved⟩
      obtain ⟨ρ, hρ⟩ := exists_atomsMatch ht (t.encode f).2 τ
      exact ⟨ρ, (h.right.sound ρ τ hsolved hρ f _ h.found).symm.trans hτ⟩
    · rintro ⟨ρ, hρ⟩
      obtain ⟨τ, hsolved, hold⟩ := h.right.complete ρ
      exact ⟨τ, (hold f _ h.found).trans hρ, hsolved⟩

theorem yields_isSatisfiable (ht : t.WellFormed) (f : Formula) :
    Yields (isSatisfiable f) t fun b t' => t' = t ∧ (b = true ↔ ∃ ρ, t.holds ρ f = true) :=
  ⟨ht, .refl t, rfl, satisfiable_iff ht f⟩

/-- The formula `f` is found valid exactly if every assignment makes it true. -/
theorem yields_isValid {φ : (Atom → Bool) → Bool} {S : Set Atom} (ht : t.WellFormed)
    (hf : t.Means f φ S) : Yields (isValid f) t fun b _ => b = true ↔ ∀ ρ, φ ρ = true := by
  refine (yields_mkNot ht hf).bind fun r t₁ ht₁ _ hr => ?_
  refine (yields_isSatisfiable ht₁ r).bind fun b t₂ ht₂ _ hb => yields_pure ht₂ ?_
  rw [Bool.not_eq_true', ← Bool.not_eq_true, hb.2, not_exists]
  refine forall_congr' fun ρ => ?_
  rw [hr.holds, Bool.not_eq_true', Bool.not_eq_false]

/-- On every table `t` that can be reached, the solver ends, on a formula `f` and on its
negation.  It finds the formula satisfiable exactly if some assignment of the atoms makes it
true, and valid exactly if all do. -/
theorem satisfiable_and_valid_iff (h : t.Reachable) (hf : t.Has f) :
    t.Settles f (t.satisfiable f) ∧
      (mkNot f t).2.Settles (mkNot f t).1 (!(isValid f t).1) ∧
      (t.satisfiable f = true ↔ ∃ ρ, (t.expr f).eval ρ = true) ∧
      ((isValid f t).1 = true ↔ ∀ ρ, (t.expr f).eval ρ = true) := by
  have ht := h.wellFormed
  obtain ⟨hnegated, -, -⟩ := yields_mkNot ht hf.means
  have hvalid : (!(isValid f t).1) = (mkNot f t).2.satisfiable (mkNot f t).1 := Bool.not_not _
  refine ⟨settles_satisfiable ht f, ?_, satisfiable_iff ht f, (yields_isValid ht hf.means).2.2⟩
  rw [hvalid]
  exact settles_satisfiable hnegated _

/-- The table of an equivalence between two atoms. -/
def equivalenceTable : FormulaTable :=
  List.foldl push { atomCount := 2 } [.atom ⟨0⟩, .atom ⟨1⟩, .equals ⟨0⟩ ⟨1⟩]

theorem reachable_equivalenceTable : equivalenceTable.Reachable :=
  .mkEquals (x := ⟨0⟩) (y := ⟨1⟩)
    (.mkAtom (a := ⟨1⟩) (.mkAtom (a := ⟨0⟩) (.freshAtom (.freshAtom .empty)) (by decide))
      (by decide)) (by decide) (by decide)

/-- The solver tells that the equivalence is true under some assignments but not all. -/
theorem equivalence_satisfiable_not_valid :
    equivalenceTable.Reachable ∧ equivalenceTable.Has ⟨2⟩ ∧ equivalenceTable.Settles ⟨2⟩ true ∧
      (∃ ρ, (equivalenceTable.expr ⟨2⟩).eval ρ = true) ∧
      ¬ ∀ ρ, (equivalenceTable.expr ⟨2⟩).eval ρ = true := by
  obtain ⟨hsettles, -, hsatisfiable, hvalid⟩ :=
    satisfiable_and_valid_iff reachable_equivalenceTable (f := ⟨2⟩) (by decide)
  have htrue : equivalenceTable.satisfiable ⟨2⟩ = true := by decide +kernel
  rw [htrue] at hsettles
  exact ⟨reachable_equivalenceTable, by decide, hsettles, hsatisfiable.1 htrue,
    fun hall => absurd (hvalid.2 hall) (by decide +kernel)⟩

end FlowFacts
