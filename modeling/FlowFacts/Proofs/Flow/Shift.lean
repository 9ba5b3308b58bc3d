import FlowFacts.Check.Report
import FlowFacts.Proofs.Lookup
import FlowFacts.Proofs.Program.Relocated
import Mathlib.Data.List.Basic
import Mathlib.Tactic.Common

/-!
# Renumbering values

Values are numbered in the order of their creation, so what stands before a function in its
program moves the numbers of its values, all by the same amount.  Tables and environments
know values by these numbers only: they compare them, and they keep bindings in their order,
but which atoms and formulas are made depends on nothing else.  So if all numbers are moved,
the steps of an analysis do the same as before, with the numbers moved in their results.

Events are left out of this: they are written along the way and never read.

## Main definitions

* `Bindings.shift`, `Environment.shift`, `FormulaTable.shift` — the numbers of values moved.
* `Follows` — steps that do the same as others, with the numbers moved.
* `Tracks` — the same for steps that report events.
* `Does` — steps without their events.

## Main results

* `follows_renew`, `follows_bind`, `follows_joinAll`, `follows_equivalent` — the steps on
  environments.
* `follows_truth` — the questions that a report asks.
-/

namespace FlowFacts

variable {k n : Nat} {α β γ δ : Type} {i : α → β}

/-! ### Numbers moved -/

/-- The pairs `l` with the numbers of their values moved by `k`. -/
def shiftKeys (k : Nat) (l : List (ValueId × α)) : List (ValueId × α) :=
  l.map fun x => (x.1.shift k, x.2)

@[simp] theorem shiftKeys_zero (l : List (ValueId × α)) : shiftKeys 0 l = l := by
  simp [shiftKeys]

@[simp] theorem lookup_shiftKeys (v : ValueId) (l : List (ValueId × α)) :
    (shiftKeys k l).lookup (v.shift k) = l.lookup v :=
  (lookup_map_key ValueId.shift_injective id v l).trans (Option.map_id_apply ..)

/-- The bindings `b` with the numbers of the values moved by `k`. -/
def Bindings.shift (k : Nat) (b : Bindings) : Bindings :=
  ⟨shiftKeys k b.entries, List.pairwise_map.2 (b.ascending.imp fun h => Nat.add_lt_add_right h k)⟩

namespace Bindings

@[simp] theorem entries_shift (b : Bindings) : (b.shift k).entries = shiftKeys k b.entries := rfl

@[simp] theorem shift_zero : Bindings.shift 0 = id := by
  funext b
  cases b
  simp [Bindings.shift]

@[simp] theorem shift_inj {b c : Bindings} : b.shift k = c.shift k ↔ b = c := by
  refine ⟨fun h => ?_, congrArg _⟩
  have hinj : Function.Injective fun x : ValueId × Formula => (x.1.shift k, x.2) := by
    rintro ⟨v, f⟩ ⟨w, g⟩ h
    simpa using h
  have hentries : b.entries = c.entries :=
    hinj.list_map (congrArg Bindings.entries h)
  cases b
  cases c
  simpa using hentries

@[simp] theorem get?_shift (b : Bindings) (v : ValueId) :
    (b.shift k).get? (v.shift k) = b.get? v :=
  lookup_shiftKeys v b.entries

@[simp] theorem empty_shift : Bindings.empty.shift k = .empty := rfl

theorem insertEntry_shift (v : ValueId) (f : Formula) (l : List (ValueId × Formula)) :
    insertEntry (v.shift k) f (shiftKeys k l) = shiftKeys k (insertEntry v f l) := by
  induction l with
  | nil => rfl
  | cons x l ih =>
    obtain ⟨w, g⟩ := x
    have hcons : shiftKeys k ((w, g) :: l) = (w.shift k, g) :: shiftKeys k l := rfl
    simp only [hcons, insertEntry, ValueId.index_shift, Nat.add_lt_add_iff_right, ih]
    split
    · rfl
    · split <;> rfl

@[simp] theorem set_shift (b : Bindings) (v : ValueId) (f : Formula) :
    (b.shift k).set (v.shift k) f = (b.set v f).shift k := by
  simp only [Bindings.set, Bindings.shift, insertEntry_shift]

/-- Bindings are kept for a reason `keep` that does not depend on the numbers. -/
theorem filter_shift (b : Bindings) {keep keep' : ValueId → Formula → Bool}
    (h : ∀ v f, keep' (v.shift k) f = keep v f) :
    (b.shift k).filter keep' = (b.filter keep).shift k := by
  simp only [Bindings.filter, Bindings.shift, shiftKeys, List.filter_map, Function.comp_def, h]

@[simp] theorem erase_shift (b : Bindings) (v : ValueId) :
    (b.shift k).erase (v.shift k) = (b.erase v).shift k :=
  b.filter_shift fun w _ => by simp [bne, BEq.beq]

end Bindings

/-- The environment `e` with the numbers of the values moved by `k`. -/
def Environment.shift (k : Nat) (e : Environment) : Environment :=
  { values := e.values.shift k, flow := e.flow }

@[simp] theorem Environment.values_shift (e : Environment) :
    (e.shift k).values = e.values.shift k := rfl

@[simp] theorem Environment.flow_shift (e : Environment) : (e.shift k).flow = e.flow := rfl

@[simp] theorem Environment.shift_zero : Environment.shift 0 = id := by
  funext e
  simp [Environment.shift]

@[simp] theorem Environment.set_shift (e : Environment) (v : ValueId) (f : Formula) :
    (e.shift k).set (v.shift k) f = (e.set v f).shift k := by
  simp [Environment.set, Environment.shift]

@[simp] theorem Environment.erase_shift (e : Environment) (v : ValueId) :
    (e.shift k).erase (v.shift k) = (e.erase v).shift k := by
  simp [Environment.erase, Environment.shift]

namespace FormulaTable

/-- The table `t` with the numbers of the values moved by `k`. -/
def shift (k : Nat) (t : FormulaTable) : FormulaTable :=
  { t with valueAtoms := shiftKeys k t.valueAtoms, mergeAtoms := shiftKeys k t.mergeAtoms }

variable {t : FormulaTable} {f g : Formula}

@[simp] theorem shift_zero (t : FormulaTable) : t.shift 0 = t := by simp [shift]

@[simp] theorem shift_empty : ({} : FormulaTable).shift k = {} := rfl

@[simp] theorem size_shift (t : FormulaTable) : (t.shift k).size = t.size := rfl

@[simp] theorem node_shift (t : FormulaTable) : (t.shift k).node = t.node := rfl

@[simp] theorem literal?_shift (t : FormulaTable) : (t.shift k).literal? = t.literal? := rfl

@[simp] theorem complementary_shift (t : FormulaTable) :
    (t.shift k).complementary = t.complementary := rfl

@[simp] theorem interned_shift (t : FormulaTable) : (t.shift k).interned = t.interned := rfl

theorem conjunctWithin_shift (t : FormulaTable) :
    (t.shift k).conjunctWithin g n f = t.conjunctWithin g n f := by
  induction n generalizing f with
  | zero => rfl
  | succ n ih => simp only [conjunctWithin, node_shift, ih]

@[simp] theorem hasConjunct_shift (t : FormulaTable) : (t.shift k).hasConjunct = t.hasConjunct :=
  funext fun _ => funext fun _ => conjunctWithin_shift t

theorem visit_shift (t : FormulaTable) {v : Visited} :
    (t.shift k).visit n f v = t.visit n f v := by
  induction n generalizing f v with
  | zero => rfl
  | succ n ih => simp only [visit, node_shift, ih]

@[simp] theorem mentions_shift (t : FormulaTable) : (t.shift k).mentions = t.mentions := by
  funext f a
  simp only [mentions, atomsOf, visit_shift]

theorem encodeWithin_shift (t : FormulaTable) {e : Encoding} :
    (t.shift k).encodeWithin n f e = t.encodeWithin n f e := by
  induction n generalizing f e with
  | zero => rfl
  | succ n ih => simp only [encodeWithin, node_shift, ih]

@[simp] theorem satisfiable_shift (t : FormulaTable) : (t.shift k).satisfiable = t.satisfiable := by
  funext f
  simp only [satisfiable, encode, literal?_shift, encodeWithin_shift]

end FormulaTable

/-! ### Steps on tables -/

/-- The steps `y` do on tables with numbers moved by `k` what `x` does, up to `g` in the result. -/
def Follows (k : Nat) (g : α → β) (x : FormulaM α) (y : FormulaM β) : Prop :=
  ∀ t : FormulaTable, y (t.shift k) = (g (x t).1, (x t).2.shift k)

theorem follows_pure {g : α → β} {a : α} {b : β} (h : b = g a) :
    Follows k g (pure a) (pure b) := by
  subst h
  exact fun _ => rfl

theorem Follows.bind {g : α → β} {h : γ → δ} {x : FormulaM α} {y : FormulaM β}
    {f : α → FormulaM γ} {f' : β → FormulaM δ} (hx : Follows k g x y)
    (hf : ∀ a, Follows k h (f a) (f' (g a))) : Follows k h (x >>= f) (y >>= f') := by
  intro t
  show f' (y (t.shift k)).1 (y (t.shift k)).2 = _
  rw [hx t]
  exact hf _ _

/-- If the numbers stay, `x` follows itself. -/
theorem follows_refl (x : FormulaM α) : Follows 0 id x x := by
  intro t
  rw [FormulaTable.shift_zero, FormulaTable.shift_zero]
  rfl

/-- What is read off a table does not depend on the numbers. -/
theorem follows_get_bind {h : γ → δ} {f : FormulaTable → FormulaM γ}
    {f' : FormulaTable → FormulaM δ} (hf : ∀ t, Follows k h (f t) (f' (t.shift k))) :
    Follows k h (get >>= f) (get >>= f') :=
  fun t => hf t t

theorem Follows.mapM {g : γ → δ} {f : α → FormulaM γ} {f' : β → FormulaM δ} {l : List α}
    (h : ∀ a ∈ l, Follows k g (f a) (f' (i a))) :
    Follows k (List.map g) (l.mapM f) ((l.map i).mapM f') := by
  induction l with
  | nil => exact follows_pure rfl
  | cons a l ih =>
    rw [List.forall_mem_cons] at h
    rw [List.map_cons, List.mapM_cons, List.mapM_cons]
    exact h.1.bind fun c => (ih h.2).bind fun cs => follows_pure rfl

theorem Follows.foldlM {g : γ → δ} {f : γ → α → FormulaM γ} {f' : δ → β → FormulaM δ} {l : List α}
    (h : ∀ c, ∀ a ∈ l, Follows k g (f c a) (f' (g c) (i a))) (c : γ) :
    Follows k g (l.foldlM f c) ((l.map i).foldlM f' (g c)) := by
  induction l generalizing c with
  | nil => exact follows_pure rfl
  | cons a l ih =>
    rw [List.map_cons, List.foldlM_cons, List.foldlM_cons]
    exact (h c a List.mem_cons_self).bind fun c' =>
      ih (fun c a ha => h c a (List.mem_cons_of_mem _ ha)) c'

/-! ### Formulas -/

theorem follows_intern (node : Node) : Follows k id (intern node) (intern node) := by
  intro t
  simp only [intern, FormulaTable.interned_shift]
  cases t.interned.lookup node <;> rfl

theorem follows_freshAtom : Follows k id freshAtom freshAtom := fun _ => rfl

theorem follows_valueAtom (v : ValueId) :
    Follows k id (valueAtom v) (valueAtom (v.shift k)) := by
  intro t
  have hlookup : (t.shift k).valueAtoms.lookup (v.shift k) = t.valueAtoms.lookup v :=
    lookup_shiftKeys v t.valueAtoms
  simp only [valueAtom, hlookup]
  cases t.valueAtoms.lookup v <;> rfl

theorem follows_mergeAtom (v : ValueId) :
    Follows k id (mergeAtom v) (mergeAtom (v.shift k)) := by
  intro t
  have hlookup : (t.shift k).mergeAtoms.lookup (v.shift k) = t.mergeAtoms.lookup v :=
    lookup_shiftKeys v t.mergeAtoms
  simp only [mergeAtom, hlookup]
  cases t.mergeAtoms.lookup v <;> rfl

theorem follows_mkAtom (a : Atom) : Follows k id (mkAtom a) (mkAtom a) := follows_intern _

theorem follows_mkLiteral (b : Bool) : Follows k id (mkLiteral b) (mkLiteral b) :=
  follows_intern _

theorem follows_mkNot (x : Formula) : Follows k id (mkNot x) (mkNot x) := by
  intro t
  simp only [mkNot, FormulaTable.node_shift]
  cases t.node x
  case literal b => exact follows_mkLiteral _ t
  case not y => rfl
  all_goals exact follows_intern _ t

theorem follows_mkAnd (x y : Formula) : Follows k id (mkAnd x y) (mkAnd x y) := by
  intro t
  rw [mkAnd, mkAnd, FormulaTable.literal?_shift, FormulaTable.complementary_shift,
    FormulaTable.hasConjunct_shift]
  rcases t.literal? x with _ | _ | _ <;> rcases t.literal? y with _ | _ | _
  -- no operand is a literal, so the shortcuts and the table are asked
  case none.none =>
    dsimp only
    split_ifs
    · rfl
    · exact follows_mkLiteral _ t
    · rfl
    · rfl
    · exact follows_intern _ t
  all_goals first | rfl | exact follows_mkLiteral _ t

theorem follows_mkOr (x y : Formula) : Follows k id (mkOr x y) (mkOr x y) := by
  intro t
  rw [mkOr, mkOr, FormulaTable.literal?_shift, FormulaTable.complementary_shift]
  rcases t.literal? x with _ | _ | _ <;> rcases t.literal? y with _ | _ | _
  case none.none =>
    dsimp only
    split_ifs
    · rfl
    · exact follows_mkLiteral _ t
    · exact follows_intern _ t
  all_goals first | rfl | exact follows_mkLiteral _ t

theorem follows_mkImplies (x y : Formula) : Follows k id (mkImplies x y) (mkImplies x y) := by
  intro t
  rw [mkImplies, mkImplies, FormulaTable.literal?_shift]
  rcases t.literal? x with _ | _ | _ <;> rcases t.literal? y with _ | _ | _
  case none.none =>
    dsimp only
    split_ifs
    · exact follows_mkLiteral _ t
    · exact follows_intern _ t
  all_goals first | rfl | exact follows_mkLiteral _ t | exact follows_mkNot _ t

theorem follows_mkEquals (x y : Formula) : Follows k id (mkEquals x y) (mkEquals x y) := by
  intro t
  rw [mkEquals, mkEquals, FormulaTable.literal?_shift, FormulaTable.complementary_shift]
  rcases t.literal? x with _ | _ | _ <;> rcases t.literal? y with _ | _ | _
  case none.none =>
    dsimp only
    split_ifs
    · exact follows_mkLiteral _ t
    · exact follows_mkLiteral _ t
    · exact follows_intern _ t
  all_goals first | rfl | exact follows_mkNot _ t

theorem follows_substituteWithin (σ : Substitution) (f : Formula) (memo : Memo) :
    Follows k id (substituteWithin σ n f memo) (substituteWithin σ n f memo) := by
  induction n generalizing f memo with
  | zero => exact follows_pure rfl
  | succ n ih =>
    rw [substituteWithin]
    split
    · exact follows_pure rfl
    · refine follows_get_bind fun t => ?_
      rw [FormulaTable.node_shift]
      -- one operand, or two, one after the other
      cases t.node f with
      | atom a | literal b => exact follows_pure rfl
      | not x => exact (ih x memo).bind fun r => (follows_mkNot r.1).bind fun _ => follows_pure rfl
      | and x y =>
        exact (ih x memo).bind fun r => (ih y r.2).bind fun s =>
          (follows_mkAnd _ _).bind fun _ => follows_pure rfl
      | or x y =>
        exact (ih x memo).bind fun r => (ih y r.2).bind fun s =>
          (follows_mkOr _ _).bind fun _ => follows_pure rfl
      | implies x y =>
        exact (ih x memo).bind fun r => (ih y r.2).bind fun s =>
          (follows_mkImplies _ _).bind fun _ => follows_pure rfl
      | equals x y =>
        exact (ih x memo).bind fun r => (ih y r.2).bind fun s =>
          (follows_mkEquals _ _).bind fun _ => follows_pure rfl

theorem follows_substitute (f : Formula) (σ : Substitution) :
    Follows k id (substitute f σ) (substitute f σ) :=
  (follows_substituteWithin σ f _).bind fun _ => follows_pure rfl

theorem follows_eliminate (f : Formula) (a : Atom) :
    Follows k id (eliminate f a) (eliminate f a) := by
  refine follows_get_bind fun t => ?_
  rw [FormulaTable.mentions_shift]
  split
  · exact (follows_mkLiteral true).bind fun _ => (follows_substitute f _).bind fun _ =>
      (follows_mkLiteral false).bind fun _ => (follows_substitute f _).bind fun _ =>
        follows_mkOr _ _
  · exact follows_pure rfl

theorem follows_eliminateAll (f : Formula) (atoms : List Atom) :
    Follows k id (eliminateAll f atoms) (eliminateAll f atoms) := by
  simpa [eliminateAll] using
    Follows.foldlM (k := k) (i := id) (g := id) (l := atoms) (fun f a _ => follows_eliminate f a) f

theorem follows_isSatisfiable (f : Formula) :
    Follows k id (isSatisfiable f) (isSatisfiable f) := by
  refine follows_get_bind fun t => ?_
  rw [FormulaTable.satisfiable_shift]
  exact follows_pure rfl

/-! ### Environments -/

theorem follows_without (b : Bindings) (atoms : List Atom) :
    Follows k (Bindings.shift k) (b.without atoms) ((b.shift k).without atoms) := by
  intro t
  rw [Bindings.without, Bindings.without, FormulaTable.mentions_shift]
  exact congrArg (·, t.shift k) (b.filter_shift fun _ _ => rfl)

theorem follows_unknown : Follows k (Environment.shift k) Environment.unknown Environment.unknown :=
  (follows_mkLiteral true).bind fun _ => follows_pure rfl

theorem follows_renew (e : Environment) (v : ValueId) :
    Follows k (Prod.map id (Environment.shift k)) (e.renew v) ((e.shift k).renew (v.shift k)) :=
  (follows_valueAtom v).bind fun a => (follows_eliminate e.flow a).bind fun _ =>
    (follows_without e.values [a]).bind fun _ => (follows_mkAtom a).bind fun _ =>
      follows_pure (by simp [Environment.shift])

theorem follows_assume (e : Environment) (f : Formula) :
    Follows k (Environment.shift k) (e.assume f) ((e.shift k).assume f) :=
  (follows_mkAnd e.flow f).bind fun _ => follows_pure rfl

theorem follows_freshFormula :
    Follows k id Environment.freshFormula Environment.freshFormula :=
  follows_freshAtom.bind fun a => follows_mkAtom a

theorem follows_proves (e : Environment) (f : Formula) :
    Follows k id (e.proves f) ((e.shift k).proves f) :=
  (follows_mkNot f).bind fun g => (follows_mkAnd e.flow g).bind fun h =>
    (follows_isSatisfiable h).bind fun _ => follows_pure rfl

theorem follows_feasible (e : Environment) : Follows k id e.feasible (e.shift k).feasible :=
  follows_isSatisfiable e.flow

theorem follows_equivalent (e₁ e₂ : Environment) :
    Follows k id (e₁.equivalent e₂) ((e₁.shift k).equivalent (e₂.shift k)) := by
  unfold Environment.equivalent
  by_cases hvalues : e₁.values = e₂.values
  · have hvalues' : (e₁.shift k).values = (e₂.shift k).values :=
      congrArg (Bindings.shift k) hvalues
    rw [if_pos hvalues, if_pos hvalues', Environment.flow_shift, Environment.flow_shift]
    split
    · exact follows_pure rfl
    · exact (follows_mkEquals _ _).bind fun f => (follows_mkNot f).bind fun g =>
        (follows_isSatisfiable g).bind fun _ => follows_pure rfl
  · have hvalues' : (e₁.shift k).values ≠ (e₂.shift k).values :=
      fun h => hvalues (Bindings.shift_inj.1 h)
    rw [if_neg hvalues, if_neg hvalues']
    exact follows_pure rfl

theorem follows_renameAway (a : Atom) : Follows k id (renameAway a) (renameAway a) :=
  follows_freshAtom.bind fun b => (follows_mkAtom b).bind fun _ => follows_pure rfl

theorem follows_bindOne (σ : Substitution) (flow : Formula) (a : Atom) (passed : Option Formula) :
    Follows k id (Environment.bindOne σ flow a passed) (Environment.bindOne σ flow a passed) := by
  refine (follows_mkAtom a).bind fun param => ?_
  cases passed with
  | none => exact follows_pure rfl
  | some f =>
    exact (follows_substitute f σ).bind fun g => (follows_mkEquals param g).bind fun h =>
      follows_mkAnd flow h

/-- Pairs whose first parts are moved by `i`. -/
theorem zip_map_fst (i : α → β) (l : List α) (rs : List γ) :
    (l.map i).zip rs = (l.zip rs).map fun x => (i x.1, x.2) := by
  rw [List.zip_map_left]
  rfl

theorem follows_bind (e : Environment) (params : List (ValueId × Option Formula)) :
    Follows k (Environment.shift k) (e.bind params) ((e.shift k).bind (shiftKeys k params)) := by
  unfold Environment.bind
  rw [shiftKeys, List.isEmpty_map]
  split
  · exact follows_pure rfl
  · refine (Follows.mapM fun x _ => (follows_valueAtom x.1).bind follows_renameAway).bind
      fun rs => ?_
    rw [List.map_id, zip_map_fst]
    refine (follows_substitute e.flow _).bind fun start => ?_
    refine (Follows.foldlM (fun flow x _ => follows_bindOne _ flow x.2.atom x.1.2) start).bind
      fun bound => (follows_eliminateAll bound _).bind fun flow => ?_
    -- the parameters are erased one by one, with their numbers moved
    have hothers : (params.map fun x => (x.1.shift k, x.2)).foldl (fun b x => b.erase x.1)
        (e.values.shift k) = (params.foldl (fun b x => b.erase x.1) e.values).shift k := by
      rw [List.foldl_map]
      exact List.foldl_hom (Bindings.shift k) fun b x => b.erase_shift x.1
    rw [Environment.values_shift, hothers]
    refine (follows_without _ _).bind fun kept => ?_
    have hset : ∀ (b : Bindings) (x : (ValueId × Option Formula) × Renaming),
        Follows k (Bindings.shift k) (do return b.set x.1.1 (← mkAtom x.2.atom))
          (do return (b.shift k).set (x.1.1.shift k) (← mkAtom x.2.atom)) := fun b x =>
      (follows_mkAtom x.2.atom).bind fun f => follows_pure (b.set_shift x.1.1 f)
    exact (Follows.foldlM (fun b x _ => hset b x) kept).bind fun values => follows_pure rfl

/-- The disagreement `d` with the number of its value moved by `k`. -/
def Environment.Disagreement.shift (k : Nat) (d : Environment.Disagreement) :
    Environment.Disagreement :=
  { d with value := d.value.shift k }

theorem agreements_shift (e₁ e₂ : Environment) :
    (e₁.shift k).agreements (e₂.shift k) = (e₁.agreements e₂).shift k :=
  e₁.values.filter_shift fun v f => by rw [Environment.values_shift, Bindings.get?_shift]

theorem disagreements_shift (e₁ e₂ : Environment) :
    (e₁.shift k).disagreements (e₂.shift k) =
      (e₁.disagreements e₂).map (Environment.Disagreement.shift k) := by
  have hentries : (e₁.shift k).values.entries =
      e₁.values.entries.map fun x => (x.1.shift k, x.2) := rfl
  rw [Environment.disagreements, Environment.disagreements, List.map_filterMap, hentries,
    List.filterMap_map]
  refine List.filterMap_congr fun x _ => ?_
  rw [Function.comp_apply, Environment.values_shift, Bindings.get?_shift]
  cases e₂.values.get? x.1 with
  | none => rfl
  | some f =>
    dsimp only
    split <;> rfl

/-- The meeting `m` with the numbers of the values moved by `k`. -/
def Environment.Meeting.shift (k : Nat) (m : Environment.Meeting) : Environment.Meeting :=
  { m with values := m.values.shift k }

theorem follows_add (m : Environment.Meeting) (σ : Substitution) (d : Environment.Disagreement)
    (a : Atom) : Follows k (Environment.Meeting.shift k) (m.add σ d a)
      ((m.shift k).add σ (d.shift k) a) :=
  (follows_mkAtom a).bind fun merged => (follows_substitute d.left σ).bind fun left =>
    (follows_substitute d.right σ).bind fun right => (follows_mkEquals merged left).bind fun f =>
      (follows_mkAnd m.left f).bind fun _ => (follows_mkEquals merged right).bind fun g =>
        (follows_mkAnd m.right g).bind fun _ =>
          follows_pure (by simp [Environment.Meeting.shift, Environment.Disagreement.shift])

theorem follows_join (e₁ e₂ : Environment) :
    Follows k (Environment.shift k) (e₁.join e₂) ((e₁.shift k).join (e₂.shift k)) := by
  unfold Environment.join
  rw [disagreements_shift, agreements_shift]
  dsimp only
  rw [List.isEmpty_map]
  split
  · exact (follows_mkOr e₁.flow e₂.flow).bind fun _ => follows_pure rfl
  · refine (Follows.mapM fun d _ => (follows_mergeAtom d.value).bind follows_renameAway).bind
      fun rs => ?_
    rw [List.map_id, zip_map_fst]
    refine (follows_substitute e₁.flow _).bind fun left =>
      (follows_substitute e₂.flow _).bind fun right => (follows_without _ _).bind fun values => ?_
    -- the disagreements are added to the meeting one by one
    refine Follows.bind (g := Environment.Meeting.shift k) ?_ ?_
    · apply Follows.foldlM (g := Environment.Meeting.shift k) (c := { left, right, values })
      intro m x _
      exact follows_add m _ x.1 x.2.atom
    intro m
    exact (follows_mkOr m.left m.right).bind fun flow =>
      (follows_eliminateAll flow _).bind fun _ => follows_pure rfl

theorem follows_joinAll (es : List Environment) :
    Follows k (Option.map (Environment.shift k)) (Environment.joinAll es)
      (Environment.joinAll (es.map (Environment.shift k))) := by
  cases es with
  | nil => exact follows_pure rfl
  | cons e es =>
    exact (Follows.foldlM (fun e₁ e₂ _ => follows_join e₁ e₂) e).bind fun _ => follows_pure rfl

theorem follows_truth (e : Environment) (f : Formula) :
    Follows k id (e.truth f) ((e.shift k).truth f) := by
  refine (follows_proves e f).bind fun b => ?_
  cases b with
  | true => exact follows_pure rfl
  | false =>
    refine (follows_mkNot f).bind fun g => (follows_proves e g).bind fun b => ?_
    cases b <;> exact follows_pure rfl

theorem follows_argumentFormula (e : Environment) (v : ValueId) :
    Follows k id (e.argumentFormula v) ((e.shift k).argumentFormula (v.shift k)) := by
  unfold Environment.argumentFormula
  rw [Environment.values_shift, Bindings.get?_shift]
  cases e.values.get? v with
  | none => exact (follows_valueAtom v).bind fun a => follows_mkAtom a
  | some f => exact follows_pure rfl

/-! ### Steps that report events -/

/-- The steps `y` do on tables with numbers moved by `k` what `x` does, up to `g` in the result,
whatever events have been reported. -/
def Tracks (k : Nat) (g : α → β) (x : AnalysisM α) (y : AnalysisM β) : Prop :=
  ∀ (s s' : Array Event) (t : FormulaTable), (y s' (t.shift k)).1.1 = g (x s t).1.1 ∧
    (y s' (t.shift k)).2 = (x s t).2.shift k

theorem Follows.tracks {g : α → β} {x : FormulaM α} {y : FormulaM β} (h : Follows k g x y) :
    Tracks k g (liftM x) (liftM y) :=
  fun _ _ t => ⟨congrArg Prod.fst (h t), congrArg Prod.snd (h t)⟩

theorem tracks_pure {g : α → β} {a : α} {b : β} (h : b = g a) : Tracks k g (pure a) (pure b) :=
  fun _ _ _ => ⟨h, rfl⟩

theorem Tracks.bind {g : α → β} {h : γ → δ} {x : AnalysisM α} {y : AnalysisM β}
    {f : α → AnalysisM γ} {f' : β → AnalysisM δ} (hx : Tracks k g x y)
    (hf : ∀ a, Tracks k h (f a) (f' (g a))) : Tracks k h (x >>= f) (y >>= f') := by
  intro s s' t
  have hf' := hf (x s t).1.1 (x s t).1.2 (y s' (t.shift k)).1.2 (x s t).2
  rw [← (hx s s' t).1, ← (hx s s' t).2] at hf'
  exact hf'

/-- Steps `x` that report nothing, and what follows for those results that they can have. -/
theorem Follows.bind_tracks {P : α → Prop} {g : α → β} {h : γ → δ} {x : FormulaM α}
    {y : FormulaM β} {f : α → AnalysisM γ} {f' : β → AnalysisM δ} (hx : Follows k g x y)
    (hP : ∀ t, P (x t).1) (hf : ∀ a, P a → Tracks k h (f a) (f' (g a))) :
    Tracks k h (liftM x >>= f) (liftM y >>= f') := by
  intro s s' t
  have hf' := hf (x t).1 (hP t) s s' (x t).2
  have hresult : (y (t.shift k)).1 = g (x t).1 := congrArg Prod.fst (hx t)
  have htable : (y (t.shift k)).2 = (x t).2.shift k := congrArg Prod.snd (hx t)
  rw [← hresult, ← htable] at hf'
  exact hf'

theorem tracks_report (event event' : Event) : Tracks k id (report event) (report event') :=
  fun _ _ _ => ⟨rfl, rfl⟩

theorem Tracks.foldlM {g : γ → δ} {f : γ → α → AnalysisM γ} {f' : δ → β → AnalysisM δ} {l : List α}
    (h : ∀ c, ∀ a ∈ l, Tracks k g (f c a) (f' (g c) (i a))) (c : γ) :
    Tracks k g (l.foldlM f c) ((l.map i).foldlM f' (g c)) := by
  induction l generalizing c with
  | nil => exact tracks_pure rfl
  | cons a l ih =>
    rw [List.map_cons, List.foldlM_cons, List.foldlM_cons]
    exact (h c a List.mem_cons_self).bind fun c' =>
      ih (fun c a ha => h c a (List.mem_cons_of_mem _ ha)) c'

/-- The steps `x` do what `y` does, and report events besides. -/
def Does (x : AnalysisM α) (y : FormulaM α) : Prop :=
  ∀ (s : Array Event) (t : FormulaTable), (x s t).1.1 = (y t).1 ∧ (x s t).2 = (y t).2

theorem does_lift (x : FormulaM α) : Does (liftM x) x := fun _ _ => ⟨rfl, rfl⟩

theorem Does.bind {x : AnalysisM α} {y : FormulaM α} {f : α → AnalysisM β} {g : α → FormulaM β}
    (hx : Does x y) (hf : ∀ a, Does (f a) (g a)) : Does (x >>= f) (y >>= g) := by
  intro s t
  have hg := hf (x s t).1.1 (x s t).1.2 (x s t).2
  show _ = (g (y t).1 (y t).2).1 ∧ _ = (g (y t).1 (y t).2).2
  rw [← (hx s t).1, ← (hx s t).2]
  exact hg

theorem Does.report {x : AnalysisM α} {y : FormulaM α} (event : Event) (hx : Does x y) :
    Does (report event >>= fun _ => x) y :=
  fun s t => hx (s.push event) t

/-- Steps `x` and `x'` do the same if they do without their events. -/
theorem Does.tracks {g : α → β} {x : AnalysisM α} {x' : AnalysisM β} {y : FormulaM α}
    {y' : FormulaM β} (hx : Does x y) (hx' : Does x' y') (h : Follows k g y y') :
    Tracks k g x x' := by
  intro s s' t
  rw [(hx' s' _).1, (hx' s' _).2, (hx s t).1, (hx s t).2, h t]
  exact ⟨rfl, rfl⟩

end FlowFacts
