import FlowFacts.Logic.Substitution
import FlowFacts.Proofs.Logic.Formula

/-!
# Substitution and elimination are exact

The walk through a formula finds exactly its atoms.  Replacing atoms by formulas evaluates
like evaluating the formula under the values of the replacements, and eliminating an atom
is the existential quantifier: the result is true exactly where some value of the atom makes
the formula true.

Both functions visit shared parts once and remember what they found.  For the walk the
invariant is that a marked formula before the current one is *complete*: all its atoms have
been met.  For substitution it is that every remembered result is the right one.

## Main definitions

* `Substitution.act` — the assignment that a substitution makes of another.
* `AgreeOff atoms ρ ρ'` — two assignments differ on the given atoms at most.
* `FormulaTable.Reachable` — the tables that the operations on formulas lead to.

## Main results

* `FormulaTable.mentions_iff` — the walk is exact.
* `yields_substitute`, `yields_eliminate`, `yields_eliminateAll`.
* `FormulaTable.Reachable.wellFormed` — every table that can be reached is well-formed.
-/

namespace FlowFacts

open FormulaM FormulaTable

/-! ### The atoms of a formula -/

namespace Visited

/-- The formula at position `i` was met. -/
def Seen (v : Visited) (i : Nat) : Prop := v.seen[i]? = some true

/-- All atoms of the formulas that were met before position `k` have been met too. -/
def Complete (t : FormulaTable) (k : Nat) (v : Visited) : Prop :=
  ∀ g : Formula, g.index < k → v.Seen g.index → ∀ a, t.Occurs a g → a ∈ v.atoms

/-- What a walk may change: it adds atoms, and marks positions before `k` only. -/
structure Extends (k : Nat) (v w : Visited) : Prop where
  /-- The positions are the same. -/
  size : w.seen.size = v.seen.size
  /-- Atoms stay. -/
  atoms : ∀ {a}, a ∈ v.atoms → a ∈ w.atoms
  /-- Marks stay. -/
  seen : ∀ {i}, v.Seen i → w.Seen i
  /-- Later positions are left alone. -/
  frame : ∀ {i}, k ≤ i → w.seen[i]? = v.seen[i]?

theorem Extends.refl (k : Nat) (v : Visited) : Extends k v v := ⟨rfl, id, id, fun _ => rfl⟩

theorem Extends.trans {k : Nat} {u v w : Visited} (h : Extends k u v) (h' : Extends k v w) :
    Extends k u w :=
  ⟨h'.size.trans h.size, fun ha => h'.atoms (h.atoms ha), fun hs => h'.seen (h.seen hs),
    fun hi => (h'.frame hi).trans (h.frame hi)⟩

theorem Extends.mono {k k' : Nat} {v w : Visited} (h : Extends k v w) (hk : k ≤ k') :
    Extends k' v w :=
  ⟨h.size, h.atoms, h.seen, fun hi => h.frame (Nat.le_trans hk hi)⟩

/-- Completeness before a smaller position `j` is enough if a walk changed nothing behind it. -/
theorem Complete.of_extends {t : FormulaTable} {j k : Nat} {v w : Visited}
    (hv : Complete t k v) (h : Extends j v w) (hw : Complete t j w) : Complete t k w := by
  intro g hg hs a ha
  by_cases hj : g.index < j
  · exact hw g hj hs a ha
  · rw [Seen, h.frame (Nat.le_of_not_lt hj)] at hs
    exact h.atoms (hv g hg hs a ha)

end Visited

namespace FormulaTable

variable {t : FormulaTable} {f g x y : Formula} {a : Atom}

/-- The walk `v` with `f` marked as met. -/
def mark (f : Formula) (v : Visited) : Visited :=
  { v with seen := v.seen.setIfInBounds f.index true }

/-- The atom at the entry `n`, if there is one. -/
def atomAt (n : Node) : List Atom :=
  match n with
  | .atom a => [a]
  | _ => []

theorem visit_succ (n : Nat) (f : Formula) (v : Visited) :
    t.visit (n + 1) f v =
      if v.seen[f.index]?.getD true then v
      else (t.node f).children.foldl (fun w x => t.visit n x w)
        { mark f v with atoms := atomAt (t.node f) ++ v.atoms } := by
  rw [visit]
  split
  · rfl
  · cases t.node f <;> rfl

theorem mem_atomAt {n : Node} : a ∈ atomAt n ↔ n = .atom a := by
  cases n <;> simp [atomAt, eq_comm]

/-- What a walk through `f`, from `v` to `w`, achieves. -/
structure WalkedThrough (t : FormulaTable) (f : Formula) (v w : Visited) : Prop where
  /-- Only formulas up to this one are marked. -/
  adds : Visited.Extends (f.index + 1) v w
  /-- The formula is marked. -/
  seen : w.Seen f.index
  /-- What is marked up to here is complete. -/
  complete : Visited.Complete t (f.index + 1) w
  /-- All atoms come from the formula. -/
  sound : ∀ a ∈ w.atoms, a ∈ v.atoms ∨ t.Occurs a f

/-- Walking through the formulas `xs` one after another. -/
theorem foldl_visit {k n : Nat} (ih : ∀ {x : Formula} {v : Visited}, x.index < n →
      x.index < v.seen.size → Visited.Complete t (x.index + 1) v →
      WalkedThrough t x v (t.visit n x v)) :
    ∀ (xs : List Formula) {v : Visited}, (∀ x ∈ xs, x.index < k) → k ≤ n → k ≤ v.seen.size →
      Visited.Complete t k v →
      Visited.Extends k v (xs.foldl (fun w x => t.visit n x w) v) ∧
        Visited.Complete t k (xs.foldl (fun w x => t.visit n x w) v) ∧
        (∀ x ∈ xs, (xs.foldl (fun w x => t.visit n x w) v).Seen x.index) ∧
        ∀ a ∈ (xs.foldl (fun w x => t.visit n x w) v).atoms,
          a ∈ v.atoms ∨ ∃ x ∈ xs, t.Occurs a x := by
  intro xs
  induction xs with
  | nil => intro v _ _ _ hc; exact ⟨.refl _ _, hc, by simp, fun a ha => Or.inl ha⟩
  | cons x xs ihxs =>
    intro v hx hn hsize hc
    have hxk : x.index < k := hx x List.mem_cons_self
    have hwalk := ih (x := x) (v := v) (by omega) (by omega)
      (fun g hg => hc g (by omega))
    have hext : Visited.Extends k v (t.visit n x v) := hwalk.adds.mono (by omega)
    obtain ⟨hext', hcomp', hseen', hsound'⟩ := ihxs (v := t.visit n x v)
      (fun z hz => hx z (List.mem_cons_of_mem _ hz)) hn (by rw [hext.size]; exact hsize)
      (hc.of_extends hwalk.adds hwalk.complete)
    rw [List.foldl_cons]
    refine ⟨hext.trans hext', hcomp', fun z hz => ?_, fun a ha => ?_⟩
    · rcases List.mem_cons.1 hz with rfl | hz
      · exact hext'.seen hwalk.seen
      · exact hseen' z hz
    · rcases hsound' a ha with ha | ⟨z, hz, hz'⟩
      · exact (hwalk.sound a ha).imp id fun h => ⟨x, List.mem_cons_self, h⟩
      · exact Or.inr ⟨z, List.mem_cons_of_mem _ hz, hz'⟩

theorem visit_spec (ht : t.WellFormed) : ∀ {n : Nat} {f : Formula} {v : Visited}, f.index < n →
    f.index < v.seen.size → Visited.Complete t (f.index + 1) v →
    WalkedThrough t f v (t.visit n f v) := by
  intro n
  induction n with
  | zero => intro f v hn; exact absurd hn (Nat.not_lt_zero _)
  | succ n ih =>
    intro f v hn hsize hc
    rw [visit_succ]
    split
    · rename_i hseen
      rw [Array.getElem?_eq_getElem hsize, Option.getD_some] at hseen
      exact ⟨.refl _ _, by rw [Visited.Seen, Array.getElem?_eq_getElem hsize, hseen], hc,
        fun a ha => Or.inl ha⟩
    · -- The formula itself is marked first; before it, everything marked stays complete.
      have hmark : Visited.Extends (f.index + 1) v
          { mark f v with atoms := atomAt (t.node f) ++ v.atoms } := by
        refine ⟨by simp [mark], fun ha => List.mem_append_right _ ha, fun {i} hi => ?_,
          fun {i} hi => ?_⟩
        · simp only [Visited.Seen, mark, Array.getElem?_setIfInBounds] at hi ⊢
          split
          · rfl
          · exact hi
        · simp only [mark]
          rw [Array.getElem?_setIfInBounds_ne (by omega)]
      have hbefore : Visited.Complete t f.index
          { mark f v with atoms := atomAt (t.node f) ++ v.atoms } := by
        intro g hg hs a ha
        simp only [Visited.Seen, mark] at hs
        rw [Array.getElem?_setIfInBounds_ne (by omega)] at hs
        exact List.mem_append_right _ (hc g (by omega) hs a ha)
      obtain ⟨hext, hcomp, hchild, hsound⟩ := foldl_visit ih (t.node f).children
        (fun x hx => ht.child_lt hx) (by omega) (by rw [hmark.size]; omega) hbefore
      -- an atom of the formula is the formula itself or one of an operand
      have hself : ∀ a, t.Occurs a f → a ∈ ((t.node f).children.foldl
          (fun w x => t.visit n x w)
          { mark f v with atoms := atomAt (t.node f) ++ v.atoms }).atoms := by
        intro a ha
        rcases (occurs_iff ht).1 ha with hn' | ⟨x, hx, hax⟩
        · exact hext.atoms (List.mem_append_left _ (mem_atomAt.2 hn'))
        · exact hcomp x (ht.child_lt hx) (hchild x hx) a hax
      refine ⟨hmark.trans (hext.mono (Nat.le_succ _)), hext.seen ?_, ?_, fun a ha => ?_⟩
      · simp [Visited.Seen, mark, hsize]
      · intro g hg hs a ha
        by_cases hgf : g.index < f.index
        · exact hcomp g hgf hs a ha
        · have hgf' : g = f := Formula.eq_of_index_eq (by omega)
          exact hself a (hgf' ▸ ha)
      · rcases hsound a ha with ha | ⟨x, hx, hax⟩
        · rcases List.mem_append.1 ha with ha | ha
          · exact Or.inr ((occurs_iff ht).2 (Or.inl (mem_atomAt.1 ha)))
          · exact Or.inl ha
        · exact Or.inr ((occurs_iff ht).2 (Or.inr ⟨x, hx, hax⟩))

/-- **The walk is exact**: it meets the atoms `a` that occur and no others. -/
theorem mentions_iff (ht : t.WellFormed) : t.mentions f a = true ↔ t.Occurs a f := by
  have hwalk := visit_spec ht (n := f.index + 1) (f := f)
    (v := { seen := Array.replicate (f.index + 1) false }) (Nat.lt_succ_self _) (by simp)
    (by intro g _ hs; simp [Visited.Seen, Array.getElem?_replicate] at hs)
  rw [mentions, List.contains_iff_mem, atomsOf]
  constructor
  · intro ha
    exact (hwalk.sound a ha).resolve_left (by simp)
  · exact hwalk.complete f (Nat.lt_succ_self _) hwalk.seen a

end FormulaTable

/-! ### Substitution -/

variable {t t' : FormulaTable} {f g x y : Formula} {a : Atom}
  {φ ψ : (Atom → Bool) → Bool} {S T : Set Atom} {σ : Substitution} {t₀ : FormulaTable}

/-- The assignment under which a formula is evaluated when its atoms are replaced by `σ`: an atom
that is replaced has the value of its replacement under `ρ`. -/
def Substitution.act (t : FormulaTable) (σ : Substitution) (ρ : Atom → Bool) (a : Atom) : Bool :=
  match σ.lookup a with
  | some g => t.holds ρ g
  | none => ρ a

/-- The atoms that `a` is replaced by. -/
def Substitution.atoms (t : FormulaTable) (σ : Substitution) (a : Atom) : Set Atom :=
  match σ.lookup a with
  | some g => {b | t.Occurs b g}
  | none => {a}

/-- All replacements of `σ` are formulas of the table. -/
def Substitution.Within (t : FormulaTable) (σ : Substitution) : Prop :=
  ∀ a g, σ.lookup a = some g → t.Has g

theorem Substitution.within_of_mem (h : ∀ x ∈ σ, t.Has x.2) : σ.Within t := by
  intro a g hg
  obtain ⟨l₁, l₂, rfl, -⟩ := List.lookup_eq_some_iff.1 hg
  exact h (a, g) (by simp)

/-- The formula `r` of `t` is what `f` turns into when the atoms of `t₀` are replaced. -/
def Substitutes (t₀ : FormulaTable) (σ : Substitution) (f r : Formula) (t : FormulaTable) :
    Prop :=
  t.Means r (fun ρ => t₀.holds (σ.act t₀ ρ) f) {b | ∃ a, t₀.Occurs a f ∧ b ∈ σ.atoms t₀ a}

/-- Everything that `memo` has is right. -/
def MemoRight (t₀ : FormulaTable) (σ : Substitution) (memo : Memo) (t : FormulaTable) : Prop :=
  ∀ (g r : Formula), memo[g.index]? = some (some r) → Substitutes t₀ σ g r t

theorem MemoRight.mono {memo : Memo} (h : MemoRight t₀ σ memo t) (hg : t.Grows t')
    (ht : t.WellFormed) (ht' : t'.WellFormed) : MemoRight t₀ σ memo t' :=
  fun g r hr => (h g r hr).mono hg ht ht'

theorem MemoRight.set {memo : Memo} {r : Formula} (h : MemoRight t₀ σ memo t)
    (hr : Substitutes t₀ σ f r t) : MemoRight t₀ σ (memo.setIfInBounds f.index (some r)) t := by
  intro g r' hg
  by_cases hfg : f.index = g.index
  · obtain rfl : f = g := Formula.eq_of_index_eq hfg
    rw [Array.getElem?_setIfInBounds_self] at hg
    split at hg
    · rw [← Option.some.inj (Option.some.inj hg)]
      exact hr
    · simp at hg
  · rw [Array.getElem?_setIfInBounds_ne hfg] at hg
    exact h g r' hg

/-- The constructor `mk` of formulas with two operands computes the connective `op`. -/
def Computes (mk : Formula → Formula → FormulaM Formula) (op : Bool → Bool → Bool) : Prop :=
  ∀ {t : FormulaTable} {x y : Formula} {φ ψ : (Atom → Bool) → Bool} {S T : Set Atom},
    t.WellFormed → t.Means x φ S → t.Means y ψ T →
      Yields (mk x y) t fun f t' => t'.Means f (fun ρ => op (φ ρ) (ψ ρ)) (S ∪ T)

/-- What the step for `f` of the walk through a formula must lead to. -/
def StepRight (t₀ : FormulaTable) (σ : Substitution) (f : Formula) :
    Formula × Memo → FormulaTable → Prop :=
  fun found t => Substitutes t₀ σ f found.1 t ∧ MemoRight t₀ σ found.2 t

/-- An atom `a` turns into its replacement, and stays if it has none. -/
theorem substitutes_atom {a : Atom} (ht₀ : t₀.WellFormed) (hσ : σ.Within t₀) (ht : t.WellFormed)
    (hg : t₀.Grows t) (hnode : t₀.node f = .atom a) :
    Substitutes t₀ σ f ((σ.lookup a).getD f) t := by
  have hatom := means_of_node_atom ht₀ hnode
  have hself : t₀.Occurs a f := (occurs_iff ht₀).2 (Or.inl hnode)
  cases hl : σ.lookup a with
  | some g =>
    refine ((hσ a g hl).means.mono hg ht₀ ht).weaken (fun ρ => ?_) fun b hb => ?_
    · rw [hatom.holds, Substitution.act, hl]
    · exact ⟨a, hself, by rw [Substitution.atoms, hl]; exact hb⟩
  | none =>
    refine (hatom.mono hg ht₀ ht).weaken (fun ρ => ?_) fun b hb => ?_
    · rw [hatom.holds, Substitution.act, hl]
    · exact ⟨a, hself, by rw [Substitution.atoms, hl]; exact hb⟩

/-- A truth value `b` stays. -/
theorem substitutes_literal {b : Bool} (ht₀ : t₀.WellFormed) (ht : t.WellFormed) (hg : t₀.Grows t)
    (hf : t₀.Has f) (hnode : t₀.node f = .literal b) : Substitutes t₀ σ f f t := by
  refine (hf.means.mono hg ht₀ ht).weaken (fun ρ => ?_) fun a ha => ?_
  · rw [holds_eq ht₀, holds_eq ht₀, hnode, Node.value, Node.value]
  · rcases (occurs_iff ht₀).1 ha with hatom | ⟨x, hx, -⟩
    · simp [hnode] at hatom
    · simp [hnode, Node.children] at hx

/-- Rebuilding an entry `f` with two operands. -/
theorem yields_rebuild_binary {n : Nat} {memo : Memo} {mk : Formula → Formula → FormulaM Formula}
    (op : Bool → Bool → Bool) (hmk : Computes mk op) (ht₀ : t₀.WellFormed) (ht : t.WellFormed)
    (hg : t₀.Grows t) (hmemo : MemoRight t₀ σ memo t) (hx : x ∈ (t₀.node f).children)
    (hy : y ∈ (t₀.node f).children) (hop : ∀ ρ τ, (t₀.node f).value ρ τ = op (τ x) (τ y))
    (ih : ∀ {z : Formula} {memo : Memo} {t : FormulaTable}, z ∈ (t₀.node f).children →
      t.WellFormed → t₀.Grows t → MemoRight t₀ σ memo t →
      Yields (substituteWithin σ n z memo) t (StepRight t₀ σ z)) :
    Yields (do
      let a ← substituteWithin σ n x memo
      let b ← substituteWithin σ n y a.2
      let r ← mk a.1 b.1
      pure (r, b.2.setIfInBounds f.index (some r))) t (StepRight t₀ σ f) := by
  refine (ih hx ht hg hmemo).bind ?_
  rintro ⟨x', memo₁⟩ t₁ ht₁ hg₁ ⟨hx', hmemo₁⟩
  refine (ih hy ht₁ (hg.trans hg₁) hmemo₁).bind ?_
  rintro ⟨y', memo₂⟩ t₂ ht₂ hg₂ ⟨hy', hmemo₂⟩
  refine (hmk ht₂ (hx'.mono hg₂ ht₁ ht₂) hy').bind ?_
  intro r t₃ ht₃ hg₃ hr
  have hf : Substitutes t₀ σ f r t₃ := by
    refine hr.weaken (fun ρ => ?_) ?_
    · rw [holds_eq ht₀ _ f, hop]
    · rintro b (⟨a, ha, hb⟩ | ⟨a, ha, hb⟩)
      · exact ⟨a, (occurs_iff ht₀).2 (Or.inr ⟨x, hx, ha⟩), hb⟩
      · exact ⟨a, (occurs_iff ht₀).2 (Or.inr ⟨y, hy, ha⟩), hb⟩
  exact yields_pure ht₃ ⟨hf, (hmemo₂.mono hg₃ ht₂ ht₃).set hf⟩

theorem yields_substituteWithin (ht₀ : t₀.WellFormed) (hσ : σ.Within t₀) :
    ∀ {n : Nat} {f : Formula} {memo : Memo} {t : FormulaTable},
      f.index < n → t₀.Has f → t.WellFormed → t₀.Grows t → MemoRight t₀ σ memo t →
      Yields (substituteWithin σ n f memo) t (StepRight t₀ σ f) := by
  intro n
  induction n with
  | zero => intro f memo t hn; exact absurd hn (Nat.not_lt_zero _)
  | succ n ih =>
    intro f memo t hn hf ht hg hmemo
    rw [substituteWithin]
    cases hm : memo[f.index]?.join with
    | some r => exact yields_pure ht ⟨hmemo f r (Option.join_eq_some_iff.1 hm), hmemo⟩
    | none =>
      have ih' : ∀ {z : Formula} {memo : Memo} {t : FormulaTable}, z ∈ (t₀.node f).children →
          t.WellFormed → t₀.Grows t → MemoRight t₀ σ memo t →
          Yields (substituteWithin σ n z memo) t (StepRight t₀ σ z) := fun hz ht hg hmemo =>
        ih (Nat.lt_of_lt_of_le (ht₀.child_lt hz) (Nat.le_of_lt_succ hn)) (ht₀.has_child hz) ht
          hg hmemo
      refine yields_get_bind ?_
      rw [hg.node hf]
      cases hcase : t₀.node f with
      | atom a =>
        have hright := substitutes_atom ht₀ hσ ht hg hcase
        exact yields_pure ht ⟨hright, hmemo.set hright⟩
      | literal b =>
        have hright : Substitutes t₀ σ f f t := substitutes_literal ht₀ ht hg hf hcase
        exact yields_pure ht ⟨hright, hmemo.set hright⟩
      | not x =>
        have hx : x ∈ (t₀.node f).children := by simp [hcase, Node.children]
        refine (ih' hx ht hg hmemo).bind ?_
        rintro ⟨x', memo₁⟩ t₁ ht₁ hg₁ ⟨hx', hmemo₁⟩
        refine (yields_mkNot ht₁ hx').bind ?_
        intro r t₂ ht₂ hg₂ hr
        have hright : Substitutes t₀ σ f r t₂ := by
          refine hr.weaken (fun ρ => ?_) ?_
          · rw [holds_eq ht₀ _ f, hcase, Node.value]
          · rintro b ⟨a, ha, hb⟩
            exact ⟨a, (occurs_iff ht₀).2 (Or.inr ⟨x, hx, ha⟩), hb⟩
        exact yields_pure ht₂ ⟨hright, (hmemo₁.mono hg₂ ht₁ ht₂).set hright⟩
      | and x y =>
        exact yields_rebuild_binary and yields_mkAnd ht₀ ht hg hmemo
          (by simp [hcase, Node.children]) (by simp [hcase, Node.children])
          (by simp [hcase, Node.value]) ih'
      | or x y =>
        exact yields_rebuild_binary or yields_mkOr ht₀ ht hg hmemo
          (by simp [hcase, Node.children]) (by simp [hcase, Node.children])
          (by simp [hcase, Node.value]) ih'
      | implies x y =>
        exact yields_rebuild_binary (fun b c => !b || c) yields_mkImplies ht₀ ht hg hmemo
          (by simp [hcase, Node.children]) (by simp [hcase, Node.children])
          (by simp [hcase, Node.value]) ih'
      | equals x y =>
        exact yields_rebuild_binary (· == ·) yields_mkEquals ht₀ ht hg hmemo
          (by simp [hcase, Node.children]) (by simp [hcase, Node.children])
          (by simp [hcase, Node.value]) ih'

/-- **Substitution is simultaneous**: the result has the value that `f` has when every replaced
atom has the value of its replacement. -/
theorem yields_substitute (ht : t.WellFormed) (hf : t.Has f) (hσ : σ.Within t) :
    Yields (substitute f σ) t fun r t' => Substitutes t σ f r t' := by
  refine (yields_substituteWithin ht hσ (Nat.lt_succ_self _) hf ht (.refl t) ?_).bind ?_
  · intro g r hg
    simp [Array.getElem?_replicate] at hg
  · rintro ⟨r, memo⟩ t' ht' _ ⟨hr, -⟩
    exact yields_pure ht' hr

/-- Substitution, for a formula `f` and replacements that are described. -/
theorem Substitutes.means {r : Formula} (h : Substitutes t₀ σ f r t) (hf : t₀.Means f φ S) :
    t.Means r (fun ρ => φ (σ.act t₀ ρ)) {b | ∃ a ∈ S, b ∈ σ.atoms t₀ a} :=
  Means.weaken h (fun _ => hf.holds _) fun _ ⟨a, ha, hb⟩ => ⟨a, hf.occurs ha, hb⟩

/-! ### Elimination -/

/-- The assignments `ρ` and `ρ'` differ on some `atoms` at most. -/
def AgreeOff (atoms : List Atom) (ρ ρ' : Atom → Bool) : Prop := ∀ a, a ∉ atoms → ρ' a = ρ a

theorem AgreeOff.refl (atoms : List Atom) (ρ : Atom → Bool) : AgreeOff atoms ρ ρ :=
  fun _ _ => rfl

/-- Replacing the atom `a` by the truth value `b`. -/
theorem yields_substitute_literal (ht : t.WellFormed) (hf : t.Means f φ S) {b : Bool}
    (hg : t.Means g (fun _ => b) ∅) :
    Yields (substitute f [(a, g)]) t fun r t' =>
      t'.Means r (fun ρ => φ (Function.update ρ a b)) (S \ {a}) := by
  have hwithin : Substitution.Within t [(a, g)] :=
    Substitution.within_of_mem (by simpa using hg.has)
  refine (yields_substitute ht hf.has hwithin).mono fun r t' _ _ hr => ?_
  refine (hr.means hf).weaken (fun ρ => congrArg φ (funext fun c => ?_)) ?_
  · rw [Substitution.act, lookup_cons_eq, List.lookup_nil]
    by_cases hc : c = a
    · rw [if_pos hc, hc, Function.update_self]
      exact hg.holds ρ
    · rw [if_neg hc, Function.update_of_ne hc]
  · rintro c ⟨d, hd, hc⟩
    rw [Substitution.atoms, lookup_cons_eq, List.lookup_nil] at hc
    by_cases hda : d = a
    · rw [if_pos hda] at hc
      exact absurd (hg.occurs hc) (Set.notMem_empty c)
    · rw [if_neg hda] at hc
      obtain rfl : c = d := hc
      exact ⟨hd, hda⟩

/-- **Elimination is the existential quantifier** over the value of `a`. -/
theorem yields_eliminate (ht : t.WellFormed) (hf : t.Means f φ S) (a : Atom) :
    Yields (eliminate f a) t fun r t' =>
      t'.Means r (fun ρ => φ (Function.update ρ a true) || φ (Function.update ρ a false))
        (S \ {a}) := by
  refine yields_get_bind ?_
  split
  · refine (yields_mkLiteral ht true).bind fun lt t₁ ht₁ hg₁ hlt => ?_
    refine (yields_substitute_literal ht₁ (hf.mono hg₁ ht ht₁) hlt).bind
      fun wt t₂ ht₂ hg₂ hwt => ?_
    refine (yields_mkLiteral ht₂ false).bind fun lf t₃ ht₃ hg₃ hlf => ?_
    have hf₃ : t₃.Means f φ S :=
      ((hf.mono hg₁ ht ht₁).mono hg₂ ht₁ ht₂).mono hg₃ ht₂ ht₃
    refine (yields_substitute_literal ht₃ hf₃ hlf).bind fun wf t₄ ht₄ hg₄ hwf => ?_
    refine (yields_mkOr ht₄ ((hwt.mono hg₃ ht₂ ht₃).mono hg₄ ht₃ ht₄) hwf).mono ?_
    exact fun r t' _ _ hr => hr.weaken (fun _ => rfl) (by rw [Set.union_self])
  · rename_i hmentions
    have hnot : ¬ t.Occurs a f := fun ha => hmentions ((mentions_iff ht).2 ha)
    refine yields_pure ht ⟨hf.has, fun ρ => ?_, fun {b} hb => ⟨hf.occurs hb, ?_⟩⟩
    · rw [← hf.holds, ← hf.holds, holds_update hnot, holds_update hnot, Bool.or_self]
    · rintro rfl
      exact hnot hb

/-- Eliminating several `atoms` leaves what some values of them make true. -/
theorem yields_eliminateAll {atoms : List Atom} : ∀ {t : FormulaTable} {f : Formula}
    {φ : (Atom → Bool) → Bool} {S : Set Atom}, t.WellFormed → t.Means f φ S →
      Yields (eliminateAll f atoms) t fun r t' =>
        ∃ φ', t'.Means r φ' (S \ {a | a ∈ atoms}) ∧
          ∀ ρ, φ' ρ = true ↔ ∃ ρ', AgreeOff atoms ρ ρ' ∧ φ ρ' = true := by
  induction atoms with
  | nil =>
    intro t f φ S ht hf
    refine yields_pure ht ⟨φ, hf.weaken (fun _ => rfl) fun _ ha => ⟨ha, by simp⟩, fun ρ => ?_⟩
    refine ⟨fun h => ⟨ρ, .refl _ _, h⟩, ?_⟩
    rintro ⟨ρ', hρ', h⟩
    rwa [show ρ' = ρ from funext fun a => hρ' a (by simp)] at h
  | cons a atoms ih =>
    intro t f φ S ht hf
    rw [eliminateAll, List.foldlM_cons]
    refine (yields_eliminate ht hf a).bind fun g t₁ ht₁ _ hg => ?_
    refine (ih ht₁ hg).mono ?_
    rintro r t' _ - ⟨φ', hr, hφ'⟩
    refine ⟨φ', hr.weaken (fun _ => rfl) ?_, fun ρ => (hφ' ρ).trans ?_⟩
    · rintro b ⟨⟨hb, hba⟩, hb'⟩
      exact ⟨hb, fun hmem => (List.mem_cons.1 hmem).elim hba hb'⟩
    · constructor
      · -- one of the two values of `a` makes the formula true
        rintro ⟨ρ', hρ', h⟩
        rw [Bool.or_eq_true] at h
        have hoff : ∀ b, AgreeOff (a :: atoms) ρ (Function.update ρ' a b) := fun b c hc => by
          obtain ⟨hca, hc⟩ := not_or.1 (List.mem_cons.not.1 hc)
          rw [Function.update_of_ne hca, hρ' c hc]
        exact h.elim (fun h => ⟨_, hoff true, h⟩) (fun h => ⟨_, hoff false, h⟩)
      · -- the value that `a` has is one of the two
        rintro ⟨ρ', hρ', h⟩
        refine ⟨Function.update ρ' a (ρ a), fun c hc => ?_, ?_⟩
        · by_cases hca : c = a
          · rw [hca, Function.update_self]
          · rw [Function.update_of_ne hca]
            exact hρ' c (by simp [hca, hc])
        · have hback : φ (Function.update (Function.update ρ' a (ρ a)) a (ρ' a)) = true := by
            rw [Function.update_idem, Function.update_eq_self, h]
          rw [Bool.or_eq_true]
          cases hb : ρ' a with
          | true => exact Or.inl (hb ▸ hback)
          | false => exact Or.inr (hb ▸ hback)

/-! ### Tables that can be reached -/

/-- What the members of `x :: xs` contribute to a set, one after another. -/
theorem union_exists_cons {α β : Type} (U : Set β) (E : α → Set β) (x : α) (xs : List α) :
    U ∪ E x ∪ {b | ∃ y ∈ xs, b ∈ E y} ⊆ U ∪ {b | ∃ y ∈ x :: xs, b ∈ E y} := by
  rintro b ((hb | hb) | ⟨y, hy, hb⟩)
  · exact Or.inl hb
  · exact Or.inr ⟨x, List.mem_cons_self, hb⟩
  · exact Or.inr ⟨y, List.mem_cons_of_mem _ hy, hb⟩

/-- Conjoining the formulas `fs` one after another. -/
theorem yields_foldlM_mkAnd (ht₀ : t₀.WellFormed) {fs : List Formula} :
    ∀ {t : FormulaTable} {f : Formula} {φ : (Atom → Bool) → Bool} {S : Set Atom}, t.WellFormed →
      t₀.Grows t → (∀ g ∈ fs, t₀.Has g) → t.Means f φ S →
      Yields (fs.foldlM mkAnd f) t fun r t' =>
        t'.Means r (fun ρ => φ ρ && fs.all (t₀.holds ρ))
          (S ∪ {a | ∃ g ∈ fs, t₀.Occurs a g}) := by
  induction fs with
  | nil =>
    intro t f φ S ht _ _ hf
    exact yields_pure ht (hf.weaken (fun ρ => by simp) Set.subset_union_left)
  | cons g fs ih =>
    intro t f φ S ht hg hfs hf
    rw [List.foldlM_cons]
    have hmeans := (hfs g List.mem_cons_self).means.mono hg ht₀ ht
    refine (yields_mkAnd ht hf hmeans).bind fun r t₁ ht₁ hg₁ hr => ?_
    refine (ih ht₁ (hg.trans hg₁) (fun h hh => hfs h (List.mem_cons_of_mem _ hh)) hr).mono ?_
    intro r' t' _ _ hr'
    exact hr'.weaken (fun ρ => by rw [List.all_cons, Bool.and_assoc])
      (union_exists_cons S (fun g => {a | t₀.Occurs a g}) g fs)

theorem yields_mkAndAll (ht : t.WellFormed) {fs : List Formula} (hfs : ∀ g ∈ fs, t.Has g) :
    Yields (mkAndAll fs) t fun r t' =>
      t'.Means r (fun ρ => fs.all (t.holds ρ)) {a | ∃ g ∈ fs, t.Occurs a g} := by
  refine (yields_mkLiteral ht true).bind fun lit t₁ ht₁ hg₁ hlit => ?_
  refine (yields_foldlM_mkAnd ht ht₁ hg₁ hfs hlit).mono fun r t' _ _ hr => ?_
  exact hr.weaken (fun ρ => Bool.true_and _) (by rw [Set.empty_union])

namespace FormulaTable

/-- The tables that the operations on formulas lead to, starting with nothing. -/
inductive Reachable : FormulaTable → Prop
  /-- The empty table. -/
  | empty : Reachable {}
  /-- A new atom. -/
  | freshAtom {t : FormulaTable} : Reachable t → Reachable (freshAtom t).2
  /-- The atom of a value. -/
  | valueAtom {t : FormulaTable} (v : ValueId) : Reachable t → Reachable (valueAtom v t).2
  /-- The atom of a value at meetings. -/
  | mergeAtom {t : FormulaTable} (v : ValueId) : Reachable t → Reachable (mergeAtom v t).2
  /-- An atom as a formula. -/
  | mkAtom {t : FormulaTable} {a : Atom} :
      Reachable t → a.index < t.atomCount → Reachable (mkAtom a t).2
  /-- A truth value. -/
  | mkLiteral {t : FormulaTable} (b : Bool) : Reachable t → Reachable (mkLiteral b t).2
  /-- A negation. -/
  | mkNot {t : FormulaTable} {x : Formula} : Reachable t → t.Has x → Reachable (mkNot x t).2
  /-- A conjunction. -/
  | mkAnd {t : FormulaTable} {x y : Formula} :
      Reachable t → t.Has x → t.Has y → Reachable (mkAnd x y t).2
  /-- A conjunction of any number of formulas. -/
  | mkAndAll {t : FormulaTable} {fs : List Formula} :
      Reachable t → (∀ f ∈ fs, t.Has f) → Reachable (mkAndAll fs t).2
  /-- A disjunction. -/
  | mkOr {t : FormulaTable} {x y : Formula} :
      Reachable t → t.Has x → t.Has y → Reachable (mkOr x y t).2
  /-- An implication. -/
  | mkImplies {t : FormulaTable} {x y : Formula} :
      Reachable t → t.Has x → t.Has y → Reachable (mkImplies x y t).2
  /-- An equivalence. -/
  | mkEquals {t : FormulaTable} {x y : Formula} :
      Reachable t → t.Has x → t.Has y → Reachable (mkEquals x y t).2
  /-- A substitution. -/
  | substitute {t : FormulaTable} {f : Formula} {σ : Substitution} :
      Reachable t → t.Has f → σ.Within t → Reachable (substitute f σ t).2
  /-- An elimination. -/
  | eliminate {t : FormulaTable} {f : Formula} (a : Atom) :
      Reachable t → t.Has f → Reachable (eliminate f a t).2

/-- Every table `t` that can be reached is well-formed. -/
theorem Reachable.wellFormed (h : t.Reachable) : t.WellFormed := by
  induction h with
  | empty => exact wellFormed_empty
  | freshAtom _ ih => exact (yields_freshAtom ih).1
  | valueAtom v _ ih => exact (yields_valueAtom ih v).1
  | mergeAtom v _ ih => exact (yields_mergeAtom ih v).1
  | mkAtom _ ha ih => exact (yields_mkAtom ih ha).1
  | mkLiteral b _ ih => exact (yields_mkLiteral ih b).1
  | mkNot _ hx ih => exact (yields_mkNot ih hx.means).1
  | mkAnd _ hx hy ih => exact (yields_mkAnd ih hx.means hy.means).1
  | mkAndAll _ hfs ih => exact (yields_mkAndAll ih hfs).1
  | mkOr _ hx hy ih => exact (yields_mkOr ih hx.means hy.means).1
  | mkImplies _ hx hy ih => exact (yields_mkImplies ih hx.means hy.means).1
  | mkEquals _ hx hy ih => exact (yields_mkEquals ih hx.means hy.means).1
  | substitute _ hf hσ ih => exact (yields_substitute ih hf hσ).1
  | eliminate a _ hf ih => exact (yields_eliminate ih hf.means a).1

end FormulaTable

end FlowFacts
