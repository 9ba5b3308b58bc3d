import FlowFacts.Flow.Environment
import FlowFacts.Proofs.Logic.Satisfiable
import Mathlib.Data.List.Sort

/-!
# What steps on environments mean

The steps on environments are described by relations that no longer mention how a table
develops: each says which assignments satisfy the new flow condition, in terms of those that
satisfy the old one, and which values are bound to what.  The relations refer to one table,
and they hold in every table that develops from the one in which a step ends.  So all the
steps of an analysis can be compared in the table that it ends with.

## Main definitions

* `FormulaTable.Henceforth` — something holds from a table on.
* `Environment.Within` — the formulas of an environment are in the table.
* `Renewed`, `Assumed`, `BoundTo`, `Joined` — what the steps do.

## Main results

* `yields_renew`, `yields_assume`, `yields_bind`, `yields_join` — the steps are exact.
-/

namespace FlowFacts

open FormulaM FormulaTable

/-! ### Bindings -/

theorem lookup_insertEntry {v w : ValueId} {f : Formula} {entries : List (ValueId × Formula)} :
    (insertEntry v f entries).lookup w = if w = v then some f else entries.lookup w := by
  induction entries with
  | nil => rw [insertEntry, lookup_cons_eq]
  | cons x rest ih =>
    obtain ⟨u, g⟩ := x
    simp only [insertEntry]
    split
    · rw [lookup_cons_eq]
    · split
      · rename_i hlt
        have hne : u ≠ v := by
          rintro rfl
          exact Nat.lt_irrefl _ hlt
        rw [lookup_cons_eq, lookup_cons_eq, ih]
        by_cases hu : w = u
        · rw [if_pos hu, if_pos hu, if_neg (hu ▸ hne)]
        · rw [if_neg hu, if_neg hu]
      · -- the entry of `v` is replaced where it stands
        rename_i h₁ h₂
        have huv : v = u := by
          cases v; cases u
          rw [ValueId.mk.injEq]
          exact Nat.le_antisymm (Nat.not_lt.1 h₂) (Nat.not_lt.1 h₁)
        rw [lookup_cons_eq, lookup_cons_eq, huv]
        split <;> rfl

/-- In ascending `entries` a value stands once. -/
theorem Ascending.nodup {entries : List (ValueId × Formula)} (h : Ascending entries) :
    (entries.map Prod.fst).Nodup := by
  rw [List.nodup_iff_pairwise_ne, List.pairwise_map]
  refine h.imp fun hlt heq => ?_
  rw [heq] at hlt
  exact Nat.lt_irrefl _ hlt

namespace Bindings

variable {b : Bindings} {v w : ValueId} {f : Formula}

theorem get?_eq_some_iff : b.get? v = some f ↔ (v, f) ∈ b.entries :=
  lookup_eq_some_iff_mem b.ascending.nodup

@[simp] theorem get?_empty : Bindings.empty.get? v = none := rfl

theorem get?_set : (b.set v f).get? w = if w = v then some f else b.get? w :=
  lookup_insertEntry

theorem get?_filter_eq_some {keep : ValueId → Formula → Bool} :
    (b.filter keep).get? v = some f ↔ b.get? v = some f ∧ keep v f = true := by
  rw [get?_eq_some_iff, get?_eq_some_iff, filter, List.mem_filter]

theorem get?_erase_eq_some :
    (b.erase v).get? w = some f ↔ b.get? w = some f ∧ w ≠ v := by
  rw [erase, get?_filter_eq_some, bne_iff_ne]

/-- Bindings `b` and `b'` that give the same formulas to the same values are equal. -/
theorem eq_of_get? {b b' : Bindings} (h : ∀ v g, b.get? v = some g ↔ b'.get? v = some g) :
    b = b' := by
  have hirrefl : Std.Irrefl fun x y : ValueId × Formula => x.1.index < y.1.index :=
    ⟨fun x => Nat.lt_irrefl _⟩
  have hentries : b.entries = b'.entries := by
    refine List.Pairwise.eq_of_mem_iff b.ascending b'.ascending fun x => ?_
    rw [← get?_eq_some_iff, ← get?_eq_some_iff]
    exact h x.1 x.2
  cases b
  cases b'
  cases hentries
  rfl

end Bindings

/-! ### From a table on -/

/-- The property `P` holds in every table that develops from `t`. -/
def FormulaTable.Henceforth (t : FormulaTable) (P : FormulaTable → Prop) : Prop :=
  ∀ T : FormulaTable, T.WellFormed → t.Grows T → P T

variable {t t' T : FormulaTable} {e e₁ e₂ e' : Environment} {v w : ValueId} {f g : Formula}
  {a : Atom} {ρ : Atom → Bool} {φ : (Atom → Bool) → Bool} {S : Set Atom}
  {zs : List (ValueId × Atom)} {t₀ : FormulaTable} {params : List (ValueId × Option Formula)}
  {d : Environment.Disagreement}

theorem FormulaTable.Henceforth.mono {P : FormulaTable → Prop} (h : t.Henceforth P)
    (hg : t.Grows t') : t'.Henceforth P :=
  fun T hT hgT => h T hT (hg.trans hgT)

theorem FormulaTable.Means.henceforth (hf : t.Means f φ S) (ht : t.WellFormed) :
    t.Henceforth fun T => T.Means f φ S :=
  fun _ hT hg => hf.mono hg ht hT

/-- A step `m` for each member of a list gives a list of results. -/
theorem yields_mapM {α β : Type} {m : α → FormulaM β} {P : FormulaTable → α → β → Prop} :
    ∀ {l : List α} {t : FormulaTable}, t.WellFormed →
      (∀ x ∈ l, ∀ t', t'.WellFormed → t.Grows t' →
        Yields (m x) t' fun y t₁ => t₁.Henceforth fun T => P T x y) →
      Yields (l.mapM m) t fun ys t' => t'.Henceforth fun T => List.Forall₂ (P T) l ys := by
  intro l
  induction l with
  | nil => exact fun ht _ => yields_pure ht fun T _ _ => .nil
  | cons x l ih =>
    intro t ht hm
    rw [List.forall_mem_cons] at hm
    rw [List.mapM_cons]
    apply (hm.1 t ht (.refl t)).bind
    intro y t₁ ht₁ hg₁ hy
    apply (ih ht₁ fun z hz t' ht' hg' => hm.2 z hz t' ht' (hg₁.trans hg')).bind
    intro ys t₂ ht₂ hg₂ hys
    exact yields_pure ht₂ fun T hT hgT => .cons (hy T hT (hg₂.trans hgT)) (hys T hT hgT)

/-- The formulas of `e` are in the table `t`. -/
structure Environment.Within (e : Environment) (t : FormulaTable) : Prop where
  /-- The flow condition is. -/
  flow : t.Has e.flow
  /-- So are the formulas of values. -/
  values : ∀ v f, e.values.get? v = some f → t.Has f

theorem Environment.within_iff :
    e.Within t ↔ t.Has e.flow ∧ ∀ x ∈ e.values.entries, t.Has x.2 := by
  constructor
  · intro h
    exact ⟨h.flow, fun x hx => h.values x.1 x.2 (Bindings.get?_eq_some_iff.2 hx)⟩
  · rintro ⟨hflow, hvalues⟩
    exact ⟨hflow, fun v f hf => hvalues (v, f) (Bindings.get?_eq_some_iff.1 hf)⟩

instance (e : Environment) (t : FormulaTable) : Decidable (e.Within t) :=
  decidable_of_iff' _ Environment.within_iff

theorem Environment.Within.mono (h : e.Within t) (hg : t.Grows t') : e.Within t' :=
  ⟨hg.has h.flow, fun v f hf => hg.has (h.values v f hf)⟩

theorem Environment.Within.erase (h : e.Within t) (v : ValueId) : (e.erase v).Within t :=
  ⟨h.flow, fun w f hf => h.values w f (Bindings.get?_erase_eq_some.1 hf).1⟩

theorem Environment.Within.set (h : e.Within t) (hf : t.Has f) (v : ValueId) :
    (e.set v f).Within t := by
  refine ⟨h.flow, fun w g hg => ?_⟩
  rw [Environment.set, Bindings.get?_set] at hg
  split at hg
  · rw [← Option.some.inj hg]
    exact hf
  · exact h.values w g hg

theorem get?_without (ht : t.WellFormed) {b : Bindings} {atoms : List Atom} :
    (b.without atoms t).1.get? v = some f ↔
      b.get? v = some f ∧ ∀ a ∈ atoms, ¬ t.Occurs a f := by
  rw [Bindings.without, Bindings.get?_filter_eq_some, List.all_eq_true]
  simp only [Bool.not_eq_true', ← Bool.not_eq_true, mentions_iff ht]

/-- The step that leaves out the bindings of `b` which mention one of the `atoms`. -/
theorem yields_without (ht : t.WellFormed) (b : Bindings) (atoms : List Atom) :
    Yields (b.without atoms) t fun b' t' => t' = t ∧ ∀ v f, b'.get? v = some f ↔
      b.get? v = some f ∧ ∀ a ∈ atoms, ¬ t.Occurs a f :=
  ⟨ht, .refl t, rfl, fun _ _ => get?_without ht⟩

/-! ### A value of which nothing is known -/

/-- The value `v` becomes a new instance of itself, which its atom `a` stands for: the flow
condition of `e` forgets what it said of the atom, and so do the bindings. -/
structure Renewed (T : FormulaTable) (e : Environment) (v : ValueId) (a : Atom) (f : Formula)
    (e' : Environment) : Prop where
  /-- The atom is that of the value. -/
  atom : T.valueAtom? v = some a
  /-- The formula is the atom. -/
  formula : T.node f = .atom a
  /-- The flow condition holds if it held for some value of the atom. -/
  flow : ∀ ρ, T.holds ρ e'.flow = true ↔ ∃ b, T.holds (Function.update ρ a b) e.flow = true
  /-- No atom is added to the flow condition. -/
  flow_atoms : ∀ b, T.Occurs b e'.flow → T.Occurs b e.flow ∧ b ≠ a
  /-- Bindings that mention the atom go. -/
  values : ∀ w g, e'.values.get? w = some g ↔
    w = v ∧ g = f ∨ w ≠ v ∧ e.values.get? w = some g ∧ ¬ T.Occurs a g

/-- The flow condition becomes weaker when a value is renewed. -/
theorem Renewed.holds_flow (h : Renewed T e v a f e') (hρ : T.holds ρ e.flow = true) :
    T.holds ρ e'.flow = true :=
  (h.flow ρ).2 ⟨ρ a, by rwa [Function.update_eq_self]⟩

theorem yields_renew (ht : t.WellFormed) (he : e.Within t) (v : ValueId) :
    Yields (e.renew v) t fun r t' => r.2.Within t' ∧
      t'.Henceforth fun T => ∃ a, Renewed T e v a r.1 r.2 := by
  refine (yields_valueAtom ht v).bind fun a t₁ ht₁ hg₁ ha => ?_
  have hflow := (he.flow.means.mono hg₁ ht ht₁)
  refine (yields_eliminate ht₁ hflow a).bind fun flow t₂ ht₂ hg₂ helim => ?_
  refine (yields_without ht₂ e.values [a]).bind ?_
  rintro values t₂' - - ⟨rfl, hvalues⟩
  have halt : a.index < t₂'.atomCount :=
    Nat.lt_of_lt_of_le (ht₁.valueAtom_lt ha.1) hg₂.atomCount
  refine (yields_mkAtom ht₂ halt).bind fun f t₃ ht₃ hg₃ hf => yields_pure ht₃ ?_
  have hold : ∀ {w g}, e.values.get? w = some g → t₂'.Has g := fun hg =>
    (hg₁.trans hg₂).has (he.values _ _ hg)
  -- the bindings that are left are those that do not mention the atom, and `v` has its own
  have hget : ∀ w g, (values.set v f).get? w = some g ↔
      w = v ∧ g = f ∨ w ≠ v ∧ e.values.get? w = some g ∧ ¬ t₂'.Occurs a g := by
    intro w g
    rw [Bindings.get?_set]
    split
    · rename_i hw
      simp [hw, eq_comm]
    · rename_i hw
      simp [hvalues, hw]
  refine ⟨⟨(helim.mono hg₃ ht₂ ht₃).has, fun w g hg => ?_⟩, fun T hT hgT => ⟨a, ?_⟩⟩
  · rcases (hget w g).1 hg with ⟨-, rfl⟩ | ⟨-, hg, -⟩
    · exact has_of_node_atom hf
    · exact hg₃.has (hold hg)
  · -- what was found on the way holds in the table `T` as well
    have hmeans := (helim.mono hg₃ ht₂ ht₃).mono hgT ht₃ hT
    have hgrow := ((hg₁.trans hg₂).trans hg₃).trans hgT
    refine ⟨hgT.valueAtom (hg₃.valueAtom (hg₂.valueAtom ha.1)), hgT.node_atom hf, ?_, ?_, ?_⟩
    · intro ρ
      simp only [hmeans.holds, Bool.or_eq_true, hgrow.holds ht hT he.flow, Bool.exists_bool]
      exact or_comm
    · intro b hb
      obtain ⟨hb, hne⟩ := hmeans.occurs hb
      exact ⟨(hgrow.occurs ht hT he.flow).2 hb, hne⟩
    · intro w g
      rw [hget]
      refine or_congr_right (and_congr_right fun _ => and_congr_right fun hg => not_congr ?_)
      exact ((hg₃.trans hgT).occurs ht₂ hT (hold hg)).symm

/-! ### A formula that is known to hold -/

/-- The formula `f` is added to the flow condition of `e`. -/
structure Assumed (T : FormulaTable) (e : Environment) (f : Formula) (e' : Environment) :
    Prop where
  /-- Both have to hold. -/
  flow : ∀ ρ, T.holds ρ e'.flow = true ↔ T.holds ρ e.flow = true ∧ T.holds ρ f = true
  /-- No other atom is added to the flow condition. -/
  flow_atoms : ∀ b, T.Occurs b e'.flow → T.Occurs b e.flow ∨ T.Occurs b f
  /-- The bindings stay. -/
  values : e'.values = e.values

theorem yields_assume (ht : t.WellFormed) (he : e.Within t) (hf : t.Has f) :
    Yields (e.assume f) t fun e' t' => e'.Within t' ∧
      t'.Henceforth fun T => Assumed T e f e' := by
  refine (yields_mkAnd ht he.flow.means hf.means).bind fun flow t₁ ht₁ hg₁ hflow => ?_
  refine yields_pure ht₁ ⟨⟨hflow.has, fun v g hg => hg₁.has (he.values v g hg)⟩, ?_⟩
  intro T hT hgT
  have hmeans := hflow.mono hgT ht₁ hT
  have hgrow := hg₁.trans hgT
  refine ⟨fun ρ => ?_, fun b hb => ?_, rfl⟩
  · rw [hmeans.holds, Bool.and_eq_true, hgrow.holds ht hT he.flow, hgrow.holds ht hT hf]
  · rw [hgrow.occurs ht hT he.flow, hgrow.occurs ht hT hf]
    exact hmeans.occurs hb

/-! ### Renaming atoms -/

/-- Atoms were renamed to fresh ones, as `rs` says, in the course of steps from `t` to `t'`. -/
structure Renamings (t t' : FormulaTable) (rs : List Renaming) : Prop where
  /-- The fresh atoms stand for no value. -/
  spare : ∀ r ∈ rs, t'.Spare r.old
  /-- They are new. -/
  new : ∀ r ∈ rs, t.atomCount ≤ r.old.index
  /-- They are different. -/
  distinct : (rs.map Renaming.old).Nodup
  /-- Their formulas are known. -/
  formula : ∀ r ∈ rs, t'.node r.oldFormula = .atom r.old

theorem yields_renameAway (ht : t.WellFormed) (a : Atom) :
    Yields (renameAway a) t fun r t' => r.atom = a ∧ Renamings t t' [r] := by
  refine (yields_freshAtom ht).bind fun old t₁ ht₁ hg₁ hold => ?_
  refine (yields_mkAtom ht₁ hold.2.lt).bind fun f t₂ ht₂ hg₂ hf => yields_pure ht₂ ⟨rfl, ?_⟩
  exact {
    spare := by simpa using hold.2.mono hg₂
    new := by simp [hold.1]
    distinct := by simp
    formula := by simpa using hf }

/-- A kind of atoms that values have. -/
structure AtomKind where
  /-- The step that asks for the atom of a value. -/
  step : ValueId → FormulaM Atom
  /-- The atom that a value has. -/
  get? : FormulaTable → ValueId → Option Atom
  /-- The step gives the atom. -/
  yields : ∀ {t : FormulaTable}, t.WellFormed → ∀ v,
    Yields (step v) t fun a t' => get? t' v = some a
  /-- Atoms stay. -/
  mono : ∀ {t t' : FormulaTable} {v a}, t.Grows t' → get? t v = some a → get? t' v = some a
  /-- They have been created. -/
  lt : ∀ {t : FormulaTable} {v a}, t.WellFormed → get? t v = some a → a.index < t.atomCount
  /-- Two values have different atoms. -/
  inj : ∀ {t : FormulaTable} {v w a}, t.WellFormed → get? t v = some a → get? t w = some a →
    v = w
  /-- A spare atom is not the atom of a value. -/
  ne_spare : ∀ {t : FormulaTable} {v a}, t.Spare a → get? t v ≠ some a

/-- The atoms for what values are. -/
def AtomKind.value : AtomKind where
  step := valueAtom
  get? := valueAtom?
  yields ht v := (yields_valueAtom ht v).mono fun _ _ _ _ h => h.1
  mono hg h := hg.valueAtom h
  lt ht h := ht.valueAtom_lt h
  inj ht h h' := ht.valueAtom_inj h h'
  ne_spare h := h.not_value _

/-- The atoms for what values are where paths meet. -/
def AtomKind.merge : AtomKind where
  step := mergeAtom
  get? := mergeAtom?
  yields ht v := (yields_mergeAtom ht v).mono fun _ _ _ _ h => h.1
  mono hg h := hg.mergeAtom h
  lt ht h := ht.mergeAtom_lt h
  inj ht h h' := ht.mergeAtom_inj h h'
  ne_spare h := h.not_merge _

/-- The atoms of the values of `xs` were renamed as `rs` says, where `key` gives the value of a
list member. -/
structure RenamedAll {α : Type} (kind : AtomKind) (key : α → ValueId) (t t' : FormulaTable)
    (xs : List α) (rs : List Renaming) : Prop extends Renamings t t' rs where
  /-- One atom is renamed for each member. -/
  length : xs.length = rs.length
  /-- It is the atom of the value. -/
  atom : ∀ z ∈ xs.zip rs, kind.get? t' (key z.1) = some z.2.atom

/-- Renaming the atoms of the values of a list, one after another. -/
theorem yields_renamings {α : Type} (kind : AtomKind) (key : α → ValueId) :
    ∀ {xs : List α} {t : FormulaTable}, t.WellFormed →
      Yields (xs.mapM fun x => do renameAway (← kind.step (key x))) t fun rs t' =>
        RenamedAll kind key t t' xs rs := by
  intro xs
  induction xs with
  | nil =>
    intro t ht
    exact yields_pure ht ⟨⟨by simp, by simp, by simp, by simp⟩, rfl, by simp⟩
  | cons x xs ih =>
    intro t ht
    rw [List.mapM_cons, bind_assoc]
    refine (kind.yields ht (key x)).bind fun a t₁ ht₁ hg₁ ha => ?_
    refine (yields_renameAway ht₁ a).bind fun r t₂ ht₂ hg₂ hr => ?_
    refine (ih ht₂).bind fun rs t₃ ht₃ hg₃ hrs => yields_pure ht₃ ?_
    obtain ⟨rfl, hr⟩ := hr
    have hspare : t₂.Spare r.old := hr.spare r List.mem_cons_self
    refine ⟨⟨?_, ?_, ?_, ?_⟩, by rw [List.length_cons, List.length_cons, hrs.length], ?_⟩
    · exact List.forall_mem_cons.2 ⟨hspare.mono hg₃, hrs.spare⟩
    · refine List.forall_mem_cons.2 ⟨?_, fun r' hr' => ?_⟩
      · exact Nat.le_trans hg₁.atomCount (hr.new r List.mem_cons_self)
      · exact Nat.le_trans (hg₁.trans hg₂).atomCount (hrs.new r' hr')
    · rw [List.map_cons, List.nodup_cons]
      refine ⟨fun hmem => ?_, hrs.distinct⟩
      -- the later ones are newer than everything there was after the first
      obtain ⟨r', hr', heq⟩ := List.mem_map.1 hmem
      have hle := hrs.new r' hr'
      rw [heq] at hle
      exact absurd hspare.lt (Nat.not_lt.2 hle)
    · have hnode := hr.formula r List.mem_cons_self
      exact List.forall_mem_cons.2 ⟨hg₃.node_atom hnode, hrs.formula⟩
    · rw [List.zip_cons_cons]
      exact List.forall_mem_cons.2 ⟨kind.mono (hg₂.trans hg₃) ha, hrs.atom⟩

variable {α : Type} {kind : AtomKind} {key : α → ValueId} {xs : List α} {rs : List Renaming}

namespace RenamedAll

theorem map_fst (h : RenamedAll kind key t t' xs rs) : (xs.zip rs).map Prod.fst = xs :=
  List.map_fst_zip (Nat.le_of_eq h.length)

theorem map_snd (h : RenamedAll kind key t t' xs rs) : (xs.zip rs).map Prod.snd = rs :=
  List.map_snd_zip (Nat.le_of_eq h.length.symm)

theorem map_key (h : RenamedAll kind key t t' xs rs) :
    (xs.zip rs).map (fun z => key z.1) = xs.map key := by
  conv_rhs => rw [← h.map_fst]
  rw [List.map_map]
  rfl

theorem exists_zip (h : RenamedAll kind key t t' xs rs) {x : α} (hx : x ∈ xs) :
    ∃ r, (x, r) ∈ xs.zip rs := by
  rw [← h.map_fst] at hx
  obtain ⟨z, hz, rfl⟩ := List.mem_map.1 hx
  exact ⟨z.2, hz⟩

/-- The renamed atoms are those of the values of `xs`, also in a later table `T`. -/
theorem mem_atoms (h : RenamedAll kind key t t' xs rs) (hg : t'.Grows T) :
    a ∈ rs.map Renaming.atom ↔ ∃ x ∈ xs, kind.get? T (key x) = some a := by
  constructor
  · intro ha
    rw [← h.map_snd, List.map_map] at ha
    obtain ⟨z, hz, rfl⟩ := List.mem_map.1 ha
    exact ⟨z.1, (List.of_mem_zip hz).1, kind.mono hg (h.atom z hz)⟩
  · rintro ⟨x, hx, ha⟩
    obtain ⟨r, hz⟩ := h.exists_zip hx
    rw [kind.mono hg (h.atom _ hz), Option.some.injEq] at ha
    exact ha ▸ List.mem_map.2 ⟨r, (List.of_mem_zip hz).2, rfl⟩

/-- Different values have different atoms, so no atom is renamed twice. -/
theorem nodup_atoms (h : RenamedAll kind key t t' xs rs) (ht' : t'.WellFormed)
    (hnodup : (xs.map key).Nodup) : (rs.map Renaming.atom).Nodup := by
  have hzip : ((xs.zip rs).map fun z => key z.1).Nodup := h.map_key ▸ hnodup
  rw [← h.map_snd, List.map_map]
  refine List.Nodup.map_on (fun z hz z' hz' heq => ?_) hzip.of_map
  have hkey : key z.1 = key z'.1 := by
    refine kind.inj ht' (h.atom z hz) ?_
    rw [h.atom z' hz']
    exact congrArg some heq.symm
  exact List.inj_on_of_nodup_map hzip hz hz' hkey

/-- The atoms that took over occur in no formula `f` that was there. -/
theorem not_occurs_old (h : RenamedAll kind key t t' xs rs) (ht : t.WellFormed)
    (hf : t.Has f) (ha : a ∈ rs.map Renaming.old) : ¬ t.Occurs a f := by
  intro hocc
  obtain ⟨r, hr, rfl⟩ := List.mem_map.1 ha
  exact absurd (ht.occurs_lt hf hocc) (Nat.not_lt.2 (h.new r hr))

end RenamedAll

/-- The assignment that a renamed formula is evaluated under: atoms that were renamed by `rs`
have the truth values that `ρ` gives to the atoms that took over. -/
def renamed (rs : List Renaming) (ρ : Atom → Bool) (a : Atom) : Bool :=
  match rs.reverse.find? fun r => r.atom = a with
  | some r => ρ r.old
  | none => ρ a

theorem renamed_of_notMem (ha : a ∉ rs.map Renaming.atom) : renamed rs ρ a = ρ a := by
  have hnone : (rs.reverse.find? fun r => r.atom = a) = none := by
    rw [List.find?_eq_none]
    intro r hr hra
    exact ha (List.mem_map.2 ⟨r, List.mem_reverse.1 hr, by simpa using hra⟩)
  rw [renamed, hnone]

theorem renamed_of_mem (hnodup : (rs.map Renaming.atom).Nodup) {r : Renaming} (hr : r ∈ rs) :
    renamed rs ρ r.atom = ρ r.old := by
  rw [renamed]
  split
  · rename_i r' hr'
    have hmem : r' ∈ rs := List.mem_reverse.1 (List.mem_of_find?_eq_some hr')
    have hatom : r'.atom = r.atom := by simpa using List.find?_some hr'
    rw [List.inj_on_of_nodup_map hnodup hmem hr hatom]
  · rename_i hnone
    rw [List.find?_eq_none] at hnone
    exact absurd (by simp) (hnone r (List.mem_reverse.2 hr))

theorem lookup_substitution (rs : List Renaming) (a : Atom) :
    (Renaming.substitution rs).lookup a =
      (rs.reverse.find? fun r => r.atom = a).map Renaming.oldFormula := by
  rw [Renaming.substitution, ← List.map_reverse]
  induction rs.reverse with
  | nil => rfl
  | cons r rest ih =>
    rw [List.map_cons, lookup_cons_eq, List.find?_cons]
    by_cases h : r.atom = a
    · simp [h]
    · simp [h, Ne.symm h, ih]

/-- Renaming a formula `f`, in tables that know the formulas of the atoms that take over. -/
theorem yields_rename (ht : t.WellFormed) (hrs : ∀ r ∈ rs, t.node r.oldFormula = .atom r.old)
    (hf : t.Means f φ S) :
    Yields (substitute f (Renaming.substitution rs)) t fun r t' =>
      t'.Means r (fun ρ => φ (renamed rs ρ))
        (S \ {a | a ∈ rs.map Renaming.atom} ∪ {a | a ∈ rs.map Renaming.old}) := by
  have hmem : ∀ {b : Atom} {r : Renaming}, (rs.reverse.find? fun r => r.atom = b) = some r →
      r ∈ rs := fun h => List.mem_reverse.1 (List.mem_of_find?_eq_some h)
  have hwithin : Substitution.Within t (Renaming.substitution rs) := by
    apply Substitution.within_of_mem
    intro x hx
    obtain ⟨r, hr, rfl⟩ := List.mem_map.1 (List.mem_reverse.1 hx)
    exact has_of_node_atom (hrs r hr)
  refine (yields_substitute ht hf.has hwithin).mono fun r t' _ _ hr => ?_
  refine (hr.means hf).weaken (fun ρ => congrArg φ (funext fun b => ?_)) ?_
  · rw [Substitution.act, renamed, lookup_substitution]
    cases h : rs.reverse.find? fun r => r.atom = b with
    | none => rfl
    | some r => exact (means_of_node_atom ht (hrs r (hmem h))).holds ρ
  · -- an atom of the result comes from an atom `c` of `f`, renamed or not
    rintro b ⟨c, hc, hb⟩
    rw [Substitution.atoms, lookup_substitution] at hb
    cases h : rs.reverse.find? fun r => r.atom = c with
    | none =>
      rw [h] at hb
      have hbc : b = c := hb
      refine Or.inl ⟨hbc ▸ hc, fun hb' => ?_⟩
      obtain ⟨r, hr, hrb⟩ := List.mem_map.1 hb'
      rw [List.find?_eq_none] at h
      exact h r (List.mem_reverse.2 hr) (by simp [hrb, hbc])
    | some r =>
      rw [h] at hb
      have hbr : b = r.old := (means_of_node_atom ht (hrs r (hmem h))).occurs hb
      exact Or.inr (List.mem_map.2 ⟨r, hmem h, hbr.symm⟩)

/-- **Eliminating the old meanings.**  A condition `K` on the assignments after and before, where
before is what the renamed atoms stand for: if it depends on no atom that took over, it can be
met by choosing those exactly if some assignment before meets it, which is different on the
renamed atoms at most. -/
theorem exists_renamed_iff (hatoms : (rs.map Renaming.atom).Nodup)
    (holds : (rs.map Renaming.old).Nodup) {K : (Atom → Bool) → (Atom → Bool) → Prop}
    (hK : ∀ {ρ ρ' ρ₀ ρ₀' : Atom → Bool}, (∀ a ∉ rs.map Renaming.old, ρ a = ρ' a) →
      (∀ a ∉ rs.map Renaming.old, ρ₀ a = ρ₀' a) → K ρ ρ₀ → K ρ' ρ₀') :
    (∃ ρ', AgreeOff (rs.map Renaming.old) ρ ρ' ∧ K ρ' (renamed rs ρ')) ↔
      ∃ ρ₀, K ρ ρ₀ ∧ ∀ a ∉ rs.map Renaming.atom, ρ₀ a = ρ a := by
  constructor
  · -- before, the renamed atoms had what the atoms that took over are chosen to be
    rintro ⟨ρ', hagree, hk⟩
    refine ⟨fun a => if a ∈ rs.map Renaming.old then ρ a else renamed rs ρ' a,
      hK hagree (fun a ha => (if_neg ha).symm) hk, fun a ha => ?_⟩
    beta_reduce
    split
    · rfl
    · rename_i hold
      rw [renamed_of_notMem ha, hagree a hold]
  · rintro ⟨ρ₀, hk, hagree⟩
    -- an atom that takes over gets the value that the renamed atom had before
    let ρ' : Atom → Bool := fun a =>
      match rs.find? fun r => r.old = a with
      | some r => ρ₀ r.atom
      | none => ρ a
    have hoff : ∀ a ∉ rs.map Renaming.old, ρ' a = ρ a := by
      intro a ha
      have hnone : (rs.find? fun r => r.old = a) = none := by
        rw [List.find?_eq_none]
        intro r hr hra
        exact ha (List.mem_map.2 ⟨r, hr, by simpa using hra⟩)
      simp only [ρ', hnone]
    have hon : ∀ r ∈ rs, ρ' r.old = ρ₀ r.atom := by
      intro r hr
      simp only [ρ']
      split
      · rename_i r' hr'
        have hold : r'.old = r.old := by simpa using List.find?_some hr'
        rw [List.inj_on_of_nodup_map holds (List.mem_of_find?_eq_some hr') hr hold]
      · rename_i hnone
        rw [List.find?_eq_none] at hnone
        exact absurd (by simp) (hnone r hr)
    refine ⟨ρ', hoff, hK (fun a ha => (hoff a ha).symm) (fun a ha => ?_) hk⟩
    by_cases hmem : a ∈ rs.map Renaming.atom
    · obtain ⟨r, hr, rfl⟩ := List.mem_map.1 hmem
      rw [renamed_of_mem hatoms hr, hon r hr]
    · rw [renamed_of_notMem hmem, hoff a ha, hagree a hmem]

/-! ### Assignments to atoms of values -/

/-- The atoms of the values `D` are assigned, all at once, what formulas say: some assignment
before satisfies `flow`, gives the formulas that `P` names the truth values that the atoms have
now, and is not different otherwise. -/
def Reassigned (T : FormulaTable) (kind : AtomKind) (D : ValueId → Prop)
    (P : ValueId → Formula → Prop) (flow : Formula) (ρ : Atom → Bool) : Prop :=
  ∃ ρ₀, T.holds ρ₀ flow = true ∧
    (∀ v a f, D v → kind.get? T v = some a → P v f → ρ a = T.holds ρ₀ f) ∧
    ∀ a, (∀ v, D v → kind.get? T v ≠ some a) → ρ₀ a = ρ a

/-- What the formula `passed` for an atom `a` says about it, if there is one; the old meanings of
atoms have been renamed in the formula. -/
def equation (t : FormulaTable) (rs : List Renaming) (ρ : Atom → Bool) (a : Atom)
    (passed : Option Formula) : Bool :=
  passed.all fun f => ρ a == t.holds (renamed rs ρ) f

/-- The atoms that an equation for `a` may add: `a` itself, those of the formula, and those that
took over. -/
def equationAtoms (t : FormulaTable) (rs : List Renaming) (a : Atom) (passed : Option Formula) :
    Set Atom :=
  {b | ∃ f, passed = some f ∧ (b = a ∨ t.Occurs b f ∨ b ∈ rs.map Renaming.old)}

/-- A condition `f` with its old meanings renamed, together with equations for the atoms: once
the atoms that took over are eliminated, this is an assignment to the atoms. -/
theorem RenamedAll.reassigned_iff (h : RenamedAll kind key t t' xs rs) (ht : t.WellFormed)
    (ht' : t'.WellFormed) (hT : T.WellFormed) (hg : t.Grows t') (hgT : t'.Grows T)
    (hnodup : (xs.map key).Nodup) (hf : t.Has f) (passed : α → Option Formula)
    (hpassed : ∀ x ∈ xs, ∀ g, passed x = some g → t.Has g) :
    (∃ ρ', AgreeOff (rs.map Renaming.old) ρ ρ' ∧ (t.holds (renamed rs ρ') f &&
      (xs.zip rs).all fun z => equation t' rs ρ' z.2.atom (passed z.1)) = true) ↔
    Reassigned T kind (fun v => ∃ x ∈ xs, key x = v)
      (fun v g => ∃ x ∈ xs, key x = v ∧ passed x = some g) f ρ := by
  -- the condition as one on the assignments `ρ` after and `ρ₀` before
  let K : (Atom → Bool) → (Atom → Bool) → Prop := fun ρ ρ₀ => t.holds ρ₀ f = true ∧
    ∀ z ∈ xs.zip rs, ∀ g, passed z.1 = some g → ρ z.2.atom = t.holds ρ₀ g
  -- formulas of `t` do not mention the atoms that took over, so `K` does not depend on these
  have hK : ∀ {ρ ρ' ρ₀ ρ₀' : Atom → Bool}, (∀ a ∉ rs.map Renaming.old, ρ a = ρ' a) →
      (∀ a ∉ rs.map Renaming.old, ρ₀ a = ρ₀' a) → K ρ ρ₀ → K ρ' ρ₀' := by
    intro ρ ρ' ρ₀ ρ₀' hρ hρ₀ hk
    have hsame : ∀ {g}, t.Has g → t.holds ρ₀ g = t.holds ρ₀' g := fun hg' =>
      holds_congr fun a ha => hρ₀ a fun hold => h.not_occurs_old ht hg' hold ha
    refine ⟨hsame hf ▸ hk.1, fun z hz g hg' => ?_⟩
    have hz' := h.atom z hz
    have hnot : z.2.atom ∉ rs.map Renaming.old := by
      intro hmem
      obtain ⟨r, hr, hra⟩ := List.mem_map.1 hmem
      exact kind.ne_spare (h.spare r hr) (hra ▸ hz')
    rw [← hρ _ hnot, hk.2 z hz g hg']
    exact hsame (hpassed z.1 (List.of_mem_zip hz).1 g hg')
  -- the equations are `K` for the assignment before that the renamed atoms stand for
  have hmeaning : ∀ ρ', (t.holds (renamed rs ρ') f && (xs.zip rs).all fun z =>
      equation t' rs ρ' z.2.atom (passed z.1)) = true ↔ K ρ' (renamed rs ρ') := by
    intro ρ'
    rw [Bool.and_eq_true, List.all_eq_true]
    refine and_congr_right fun _ => forall₂_congr fun z hz => ?_
    rw [equation, Option.all_eq_true]
    refine forall₂_congr fun g hg' => ?_
    rw [beq_iff_eq, hg.holds ht ht' (hpassed z.1 (List.of_mem_zip hz).1 g hg')]
  simp only [hmeaning]
  rw [exists_renamed_iff (h.nodup_atoms ht' hnodup) h.distinct hK]
  refine exists_congr fun ρ₀ => ?_
  have hgT' := hg.trans hgT
  rw [and_assoc, hgT'.holds ht hT hf]
  refine and_congr_right fun _ => and_congr ?_ (forall_congr' fun a => ?_)
  · constructor
    · -- a value is listed once, so there is one equation for its atom
      rintro hk v a g ⟨x, hx, rfl⟩ ha ⟨y, hy, hyx, hg'⟩
      have hyx : y = x := List.inj_on_of_nodup_map hnodup hy hx hyx
      subst hyx
      obtain ⟨r, hz⟩ := h.exists_zip hy
      rw [kind.mono hgT (h.atom _ hz), Option.some.injEq] at ha
      rw [← ha, hk _ hz g hg', hgT'.holds ht hT (hpassed y hx g hg')]
    · intro hr z hz g hg'
      have hx := (List.of_mem_zip hz).1
      rw [hr (key z.1) z.2.atom g ⟨z.1, hx, rfl⟩ (kind.mono hgT (h.atom z hz))
        ⟨z.1, hx, rfl, hg'⟩, hgT'.holds ht hT (hpassed z.1 hx g hg')]
  · rw [h.mem_atoms hgT]
    simp

/-- The atoms of the equations, apart from those that took over, are the renamed ones and those
of what is `passed`. -/
theorem RenamedAll.of_mem_equationAtoms (h : RenamedAll kind key t t' xs rs) (ht' : t'.WellFormed)
    (hT : T.WellFormed) (hgT : t'.Grows T) (passed : α → Option Formula)
    (hpassed : ∀ x ∈ xs, ∀ g, passed x = some g → t'.Has g) (hold : a ∉ rs.map Renaming.old)
    (ha : ∃ z ∈ xs.zip rs, a ∈ equationAtoms t' rs z.2.atom (passed z.1)) :
    (∃ x ∈ xs, kind.get? T (key x) = some a) ∨
      ∃ x ∈ xs, ∃ g, passed x = some g ∧ T.Occurs a g := by
  obtain ⟨z, hz, g, hg, ha⟩ := ha
  obtain ⟨hx, hr⟩ := List.of_mem_zip hz
  rcases ha with rfl | ha | ha
  · exact Or.inl ((h.mem_atoms hgT).1 (List.mem_map.2 ⟨z.2, hr, rfl⟩))
  · exact Or.inr ⟨z.1, hx, g, hg, (hgT.occurs ht' hT (hpassed z.1 hx g hg)).2 ha⟩
  · exact absurd ha hold

/-- If no value is assigned anything, the condition is the old one. -/
theorem reassigned_of_none {D : ValueId → Prop} {P : ValueId → Formula → Prop} (hD : ∀ v, ¬ D v) :
    Reassigned T kind D P f ρ ↔ T.holds ρ f = true := by
  constructor
  · rintro ⟨ρ₀, h, -, hagree⟩
    rwa [show ρ₀ = ρ from funext fun a => hagree a fun v hv => absurd hv (hD v)] at h
  · intro h
    exact ⟨ρ, h, fun v _ _ hv => absurd hv (hD v), fun _ _ => rfl⟩

/-- The values of `zs` are bound to their atoms in `b'`, in place of what they were bound to in
`b`. -/
def BindsAtoms (t : FormulaTable) (zs : List (ValueId × Atom)) (b b' : Bindings) : Prop :=
  (∀ z ∈ zs, ∃ g, t.node g = .atom z.2) ∧
    ∀ v g, b'.get? v = some g ↔ (∃ a, (v, a) ∈ zs ∧ t.node g = .atom a) ∨
      (v ∉ zs.map Prod.fst ∧ b.get? v = some g)

theorem bindsAtoms_nil (t : FormulaTable) (b : Bindings) : BindsAtoms t [] b b := by
  simp [BindsAtoms]

theorem BindsAtoms.cons {b b' : Bindings} (ht : t.WellFormed) (hf : t.node f = .atom a)
    (hv : v ∉ zs.map Prod.fst) (h : BindsAtoms t zs (b.set v f) b') :
    BindsAtoms t ((v, a) :: zs) b b' := by
  refine ⟨List.forall_mem_cons.2 ⟨⟨f, hf⟩, h.1⟩, fun w g => ?_⟩
  -- an atom has one formula
  have honly : t.node g = .atom a ↔ g = f :=
    ⟨fun hn => ht.eq_of_node_atom hn hf, fun heq => heq ▸ hf⟩
  rw [h.2, Bindings.get?_set, List.map_cons, List.mem_cons, not_or]
  by_cases hw : w = v
  · subst hw
    have hnot : ∀ c, (w, c) ∉ zs := fun c hc => hv (List.mem_map.2 ⟨_, hc, rfl⟩)
    simp [hv, hnot, honly, eq_comm]
  · simp [hw]

theorem BindsAtoms.mono {b b' : Bindings} (h : BindsAtoms t zs b b') (hg : t.Grows t')
    (ht' : t'.WellFormed) : BindsAtoms t' zs b b' := by
  refine ⟨fun z hz => ?_, fun v g => ?_⟩
  · obtain ⟨g, hn⟩ := h.1 z hz
    exact ⟨g, hg.node_atom hn⟩
  · rw [h.2]
    refine or_congr_left (exists_congr fun a => and_congr_right fun hz => ?_)
    obtain ⟨g', hn'⟩ := h.1 _ hz
    exact ⟨hg.node_atom, fun hn => ht'.eq_of_node_atom (hg.node_atom hn') hn ▸ hn'⟩

theorem BindsAtoms.has {b b' : Bindings} (h : BindsAtoms t zs b b')
    (hb : ∀ v f, b.get? v = some f → t.Has f) : ∀ v f, b'.get? v = some f → t.Has f := by
  intro v f hf
  rcases (h.2 v f).1 hf with ⟨a, -, hn⟩ | ⟨-, hf⟩
  · exact has_of_node_atom hn
  · exact hb v f hf

/-- The values of `xs`, whose atoms were renamed, are bound to these atoms. -/
theorem RenamedAll.get?_iff (h : RenamedAll kind key t t' xs rs) (hgT : t'.Grows T)
    {b b' : Bindings} (hb : BindsAtoms T ((xs.zip rs).map fun z => (key z.1, z.2.atom)) b b') :
    b'.get? v = some g ↔
      ((∃ x ∈ xs, key x = v) ∧ ∃ a, kind.get? T v = some a ∧ T.node g = .atom a) ∨
        ((¬ ∃ x ∈ xs, key x = v) ∧ b.get? v = some g) := by
  have hkeys : v ∈ ((xs.zip rs).map fun z => (key z.1, z.2.atom)).map Prod.fst ↔
      ∃ x ∈ xs, key x = v := by
    rw [List.map_map, ← List.mem_map (f := key), ← h.map_key]
    rfl
  rw [hb.2, hkeys]
  refine or_congr_left ⟨?_, ?_⟩
  · rintro ⟨a, hmem, hn⟩
    obtain ⟨z, hz, heq⟩ := List.mem_map.1 hmem
    cases heq
    exact ⟨⟨z.1, (List.of_mem_zip hz).1, rfl⟩, _, kind.mono hgT (h.atom z hz), hn⟩
  · rintro ⟨⟨x, hx, rfl⟩, a, ha, hn⟩
    obtain ⟨r, hz⟩ := h.exists_zip hx
    rw [kind.mono hgT (h.atom _ hz), Option.some.injEq] at ha
    exact ⟨r.atom, List.mem_map.2 ⟨_, hz, rfl⟩, ha ▸ hn⟩

/-! ### Parameters -/

/-- The atom `a` is that of one of the parameters `params`. -/
def ParameterAtom (T : FormulaTable) (params : List (ValueId × Option Formula)) (a : Atom) :
    Prop :=
  ∃ v ∈ params.map Prod.fst, T.valueAtom? v = some a

/-- The parameters `params` take the values passed for them, all at once. -/
structure BoundTo (T : FormulaTable) (e : Environment)
    (params : List (ValueId × Option Formula)) (e' : Environment) : Prop where
  /-- Every parameter has an atom, which is a formula. -/
  atoms : ∀ v ∈ params.map Prod.fst, ∃ a g, T.valueAtom? v = some a ∧ T.node g = .atom a
  /-- The atoms of the parameters are assigned what is passed. -/
  flow : ∀ ρ, T.holds ρ e'.flow = true ↔ Reassigned T .value (· ∈ params.map Prod.fst)
    (fun v f => (v, some f) ∈ params) e.flow ρ
  /-- The atoms of the flow condition are those of the old one, of the parameters and of what
  is passed. -/
  flow_atoms : ∀ b, T.Occurs b e'.flow → T.Occurs b e.flow ∨ ParameterAtom T params b ∨
    ∃ v f, (v, some f) ∈ params ∧ T.Occurs b f
  /-- Parameters are bound to their atoms; bindings that mention one of these go. -/
  values : ∀ v g, e'.values.get? v = some g ↔
    (v ∈ params.map Prod.fst ∧ ∃ a, T.valueAtom? v = some a ∧ T.node g = .atom a) ∨
    (v ∉ params.map Prod.fst ∧ e.values.get? v = some g ∧
      ∀ a, ParameterAtom T params a → ¬ T.Occurs a g)

/-- Without parameters nothing changes. -/
theorem boundTo_nil (T : FormulaTable) (e : Environment) : BoundTo T e [] e where
  atoms := by simp
  flow ρ := (reassigned_of_none (by simp)).symm
  flow_atoms b hb := Or.inl hb
  values v g := by simp [ParameterAtom]

theorem yields_bindOne (ht₀ : t₀.WellFormed) (hrs : ∀ r ∈ rs, t₀.node r.oldFormula = .atom r.old)
    (ht : t.WellFormed) (hg : t₀.Grows t) (hf : t.Means f φ S) (ha : a.index < t.atomCount)
    {passed : Option Formula} (hpassed : ∀ g, passed = some g → t₀.Has g) :
    Yields (Environment.bindOne (Renaming.substitution rs) f a passed) t fun r t' =>
      t'.Means r (fun ρ => φ ρ && equation t₀ rs ρ a passed)
        (S ∪ equationAtoms t₀ rs a passed) := by
  refine (yields_mkAtom ht ha).bind fun param t₁ ht₁ hg₁ hparam => ?_
  cases passed with
  | none =>
    refine yields_pure ht₁ ((hf.mono hg₁ ht ht₁).weaken (fun ρ => ?_) Set.subset_union_left)
    rw [equation, Option.all_none, Bool.and_true]
  -- the equation is about the formula with its old meanings renamed
  | some g =>
    have hg' := hpassed g rfl
    have hg₀₁ := hg.trans hg₁
    refine (yields_rename ht₁ (fun r hr => hg₀₁.node_atom (hrs r hr))
      (hg'.means.mono hg₀₁ ht₀ ht₁)).bind fun g₂ t₂ ht₂ hg₂ hg₂' => ?_
    refine (yields_mkEquals ht₂ ((means_of_node_atom ht₁ hparam).mono hg₂ ht₁ ht₂) hg₂').bind
      fun q t₃ ht₃ hg₃ hq => ?_
    refine (yields_mkAnd ht₃ (((hf.mono hg₁ ht ht₁).mono hg₂ ht₁ ht₂).mono hg₃ ht₂ ht₃) hq).mono
      fun r t' _ _ hr => hr.weaken (fun ρ => rfl) ?_
    rintro b (hb | hb | ⟨hb, -⟩ | hb)
    · exact Or.inl hb
    · exact Or.inr ⟨g, rfl, Or.inl hb⟩
    · exact Or.inr ⟨g, rfl, Or.inr (Or.inl hb)⟩
    · exact Or.inr ⟨g, rfl, Or.inr (Or.inr hb)⟩

/-- All equations are added, one after another. -/
theorem yields_foldlM_bindOne (ht₀ : t₀.WellFormed)
    (hrs : ∀ r ∈ rs, t₀.node r.oldFormula = .atom r.old) :
    ∀ {zs : List ((ValueId × Option Formula) × Renaming)} {t : FormulaTable} {f : Formula}
      {φ : (Atom → Bool) → Bool} {S : Set Atom}, t.WellFormed → t₀.Grows t →
      (∀ z ∈ zs, z.2.atom.index < t₀.atomCount) →
      (∀ z ∈ zs, ∀ g, z.1.2 = some g → t₀.Has g) → t.Means f φ S →
      Yields (zs.foldlM (fun flow z =>
          Environment.bindOne (Renaming.substitution rs) flow z.2.atom z.1.2) f) t fun r t' =>
        t'.Means r (fun ρ => φ ρ && zs.all fun z => equation t₀ rs ρ z.2.atom z.1.2)
          (S ∪ {b | ∃ z ∈ zs, b ∈ equationAtoms t₀ rs z.2.atom z.1.2}) := by
  intro zs
  induction zs with
  | nil =>
    intro t f φ S ht _ _ _ hf
    exact yields_pure ht (hf.weaken (fun ρ => by simp) Set.subset_union_left)
  | cons z zs ih =>
    intro t f φ S ht hg hatoms hpassed hf
    rw [List.forall_mem_cons] at hatoms hpassed
    rw [List.foldlM_cons]
    refine (yields_bindOne ht₀ hrs ht hg hf (Nat.lt_of_lt_of_le hatoms.1 hg.atomCount)
      hpassed.1).bind fun f₁ t₁ ht₁ hg₁ hf₁ => ?_
    refine (ih ht₁ (hg.trans hg₁) hatoms.2 hpassed.2 hf₁).mono fun r t' _ _ hr => ?_
    exact hr.weaken (fun ρ => by rw [List.all_cons, Bool.and_assoc])
      (union_exists_cons S (fun z => equationAtoms t₀ rs z.2.atom z.1.2) z zs)

theorem get?_foldl_erase : ∀ {b : Bindings},
    (params.foldl (fun b x => b.erase x.1) b).get? v = some f ↔
      b.get? v = some f ∧ v ∉ params.map Prod.fst := by
  induction params with
  | nil => simp
  | cons x params ih =>
    intro b
    rw [List.foldl_cons, ih, Bindings.get?_erase_eq_some, List.map_cons, List.mem_cons, not_or,
      and_assoc]

/-- The parameters are bound to their atoms. -/
theorem yields_foldlM_set : ∀ {zs : List ((ValueId × Option Formula) × Renaming)}
    {t : FormulaTable} {b : Bindings}, t.WellFormed → (zs.map fun z => z.1.1).Nodup →
      (∀ z ∈ zs, z.2.atom.index < t.atomCount) →
      Yields (zs.foldlM (fun b z => do return b.set z.1.1 (← mkAtom z.2.atom)) b) t fun b' t' =>
        BindsAtoms t' (zs.map fun z => (z.1.1, z.2.atom)) b b' := by
  intro zs
  induction zs with
  | nil =>
    intro t b ht _ _
    exact yields_pure ht (bindsAtoms_nil t b)
  | cons z zs ih =>
    intro t b ht hnodup hatoms
    rw [List.map_cons, List.nodup_cons] at hnodup
    rw [List.forall_mem_cons] at hatoms
    rw [List.foldlM_cons, bind_assoc]
    refine (yields_mkAtom ht hatoms.1).bind fun h t₁ ht₁ hg₁ hh => ?_
    rw [pure_bind]
    refine (ih ht₁ hnodup.2 fun z' hz' => Nat.lt_of_lt_of_le (hatoms.2 z' hz')
      hg₁.atomCount).mono fun b' t' ht' hg' hb' => ?_
    refine hb'.cons ht' ?_ ?_
    · exact hg'.node_atom hh
    · rw [List.map_map]
      exact hnodup.1

/-- **Binding is exact**: it is a simultaneous assignment to the parameters `params`. -/
theorem yields_bind (ht : t.WellFormed) (he : e.Within t) (hnodup : (params.map Prod.fst).Nodup)
    (hparams : ∀ v f, (v, some f) ∈ params → t.Has f) :
    Yields (e.bind params) t fun e' t' => e'.Within t' ∧
      t'.Henceforth fun T => BoundTo T e params e' := by
  unfold Environment.bind
  split
  · rename_i hempty
    rw [List.isEmpty_iff.1 hempty]
    exact yields_pure ht ⟨he, fun T _ _ => boundTo_nil T e⟩
  have hpassed : ∀ x ∈ params, ∀ f, x.2 = some f → t.Has f := by
    rintro ⟨v, _⟩ hx f rfl
    exact hparams v f hx
  -- the old meanings get new names, in the flow condition first and in each equation then
  refine (yields_renamings .value Prod.fst ht).bind fun rs t₁ ht₁ hg₁ hrs => ?_
  refine (yields_rename ht₁ hrs.formula (he.flow.means.mono hg₁ ht ht₁)).bind
    fun start t₂ ht₂ hg₂ hstart => ?_
  have hatoms : ∀ z ∈ params.zip rs, z.2.atom.index < t₁.atomCount := fun z hz =>
    ht₁.valueAtom_lt (hrs.atom z hz)
  have hpassed₁ : ∀ x ∈ params, ∀ f, x.2 = some f → t₁.Has f := fun x hx f hf =>
    hg₁.has (hpassed x hx f hf)
  refine (yields_foldlM_bindOne ht₁ hrs.formula ht₂ hg₂ hatoms (fun z hz =>
    hpassed₁ z.1 (List.of_mem_zip hz).1) hstart).bind fun bound t₃ ht₃ hg₃ hbound => ?_
  -- with the equations in place, the new names are eliminated again
  refine (yields_eliminateAll ht₃ hbound).bind fun flow t₄ ht₄ hg₄ helim => ?_
  refine (yields_without ht₄ _ _).bind ?_
  rintro kept t₄' - - ⟨rfl, hkept⟩
  have hg₁₄ := (hg₂.trans hg₃).trans hg₄
  have hg₀₄ : t.Grows t₄' := hg₁.trans hg₁₄
  refine (yields_foldlM_set ht₄ (hrs.map_key ▸ hnodup) fun z hz =>
    Nat.lt_of_lt_of_le (hatoms z hz) hg₁₄.atomCount).bind fun values t₅ ht₅ hg₅ hvalues => ?_
  have hkept' : ∀ v g, kept.get? v = some g ↔ (e.values.get? v = some g ∧
      v ∉ params.map Prod.fst) ∧ ∀ a ∈ rs.map Renaming.atom, ¬ t₄'.Occurs a g := fun v g => by
    rw [hkept, get?_foldl_erase]
  obtain ⟨φ, hφ, hmeaning⟩ := helim
  refine yields_pure ht₅ ⟨⟨hg₅.has hφ.has, hvalues.has fun v g hg => ?_⟩, fun T hT hgT => ?_⟩
  · exact (hg₀₄.trans hg₅).has (he.values v g ((hkept' v g).1 hg).1.1)
  -- all that is left is to read the meanings in the last table
  have hg₄T := hg₅.trans hgT
  have hg₁T := hg₁₄.trans hg₄T
  have hmem : ∀ v, (∃ x ∈ params, x.1 = v) ↔ v ∈ params.map Prod.fst := fun v =>
    List.mem_map.symm
  have hparam : ∀ b, b ∈ rs.map Renaming.atom ↔ ParameterAtom T params b := by
    intro b
    rw [hrs.mem_atoms hg₁T, ParameterAtom]
    simp only [List.mem_map, exists_exists_and_eq_and]
    rfl
  refine ⟨?_, fun ρ => ?_, fun b hb => ?_, fun v g => ?_⟩
  · intro v hv
    obtain ⟨z, hz, rfl⟩ := List.mem_map.1 (hrs.map_key ▸ hv)
    obtain ⟨g, hg⟩ := (hvalues.mono hgT hT).1 _ (List.mem_map.2 ⟨z, hz, rfl⟩)
    exact ⟨_, g, hg₁T.valueAtom (hrs.atom z hz), hg⟩
  · rw [(hφ.mono hg₄T ht₄ hT).holds, hmeaning,
      hrs.reassigned_iff ht ht₁ hT hg₁ hg₁T hnodup he.flow Prod.snd hpassed]
    have hP : (fun v g => ∃ x ∈ params, x.1 = v ∧ x.2 = some g) =
        fun v g => (v, some g) ∈ params := by
      funext v g
      simp
    rw [hP]
    simp only [hmem]
  · -- an atom comes from the old condition or from an equation; those that took over are gone
    obtain ⟨(⟨hb, -⟩ | hb) | hb, hold⟩ := (hφ.mono hg₄T ht₄ hT).occurs hb
    · exact Or.inl (((hg₀₄.trans hg₄T).occurs ht hT he.flow).2 hb)
    · exact absurd hb hold
    · refine Or.inr ((hrs.of_mem_equationAtoms ht₁ hT hg₁T Prod.snd hpassed₁ hold hb).imp ?_ ?_)
      · rintro ⟨x, hx, hatom⟩
        exact ⟨x.1, List.mem_map_of_mem hx, hatom⟩
      · rintro ⟨⟨v, _⟩, hx, g, rfl, hocc⟩
        exact ⟨v, g, hx, hocc⟩
  · rw [hrs.get?_iff hg₁T (hvalues.mono hgT hT), hmem, hkept', and_assoc]
    refine or_congr_right (and_congr_right fun hv => and_congr_right fun hg => ?_)
    simp only [hv, not_false_eq_true, true_and, hparam]
    refine forall₂_congr fun a _ => not_congr ?_
    exact (hg₄T.occurs ht₄ hT (hg₀₄.has (he.values v g hg))).symm

/-! ### Meetings -/

/-- The environments `e₁` and `e₂` bind `v` differently. -/
def Disagree (e₁ e₂ : Environment) (v : ValueId) : Prop :=
  ∃ f g, e₁.values.get? v = some f ∧ e₂.values.get? v = some g ∧ f ≠ g

/-- The atom `a` is that for meetings of a value that `e₁` and `e₂` bind differently. -/
def MeetingAtom (T : FormulaTable) (e₁ e₂ : Environment) (a : Atom) : Prop :=
  ∃ v, Disagree e₁ e₂ v ∧ T.mergeAtom? v = some a

/-- One side `e` of a meeting of `e₁` and `e₂`: the atoms of the values that are bound
differently are assigned what they are on this side. -/
def MeetingSide (T : FormulaTable) (e₁ e₂ e : Environment) (ρ : Atom → Bool) : Prop :=
  Reassigned T .merge (Disagree e₁ e₂) (fun v f => e.values.get? v = some f) e.flow ρ

/-- The environments `e₁` and `e₂` are joined to `e'`. -/
structure Joined (T : FormulaTable) (e₁ e₂ e' : Environment) : Prop where
  /-- Every value that is bound differently has an atom for meetings, which is a formula. -/
  atoms : ∀ v, Disagree e₁ e₂ v → ∃ a g, T.mergeAtom? v = some a ∧ T.node g = .atom a
  /-- The flow condition holds if one side does. -/
  flow : ∀ ρ, T.holds ρ e'.flow = true ↔ MeetingSide T e₁ e₂ e₁ ρ ∨ MeetingSide T e₁ e₂ e₂ ρ
  /-- Its atoms come from both sides, or are those for the meeting. -/
  flow_atoms : ∀ b, T.Occurs b e'.flow → T.Occurs b e₁.flow ∨ T.Occurs b e₂.flow ∨
    MeetingAtom T e₁ e₂ b ∨ ∃ v f, (e₁.values.get? v = some f ∨ e₂.values.get? v = some f) ∧
      T.Occurs b f
  /-- Values that are bound differently are bound to their atoms.  Of those that are bound
  alike, the ones that mention such an atom go. -/
  values : ∀ v g, e'.values.get? v = some g ↔
    (Disagree e₁ e₂ v ∧ ∃ a, T.mergeAtom? v = some a ∧ T.node g = .atom a) ∨
    (e₁.values.get? v = some g ∧ e₂.values.get? v = some g ∧
      ∀ a, MeetingAtom T e₁ e₂ a → ¬ T.Occurs a g)

theorem mem_disagreements :
    d ∈ e₁.disagreements e₂ ↔ e₁.values.get? d.value = some d.left ∧
      e₂.values.get? d.value = some d.right ∧ d.left ≠ d.right := by
  rw [Environment.disagreements, List.mem_filterMap]
  constructor
  · rintro ⟨⟨v, f⟩, hmem, hd⟩
    rw [← Bindings.get?_eq_some_iff] at hmem
    split at hd
    · rename_i g hg
      split at hd
      · simp at hd
      · rename_i hne
        cases hd
        exact ⟨hmem, hg, Ne.symm hne⟩
    · simp at hd
  · rintro ⟨h₁, h₂, hne⟩
    refine ⟨(d.value, d.left), Bindings.get?_eq_some_iff.1 h₁, ?_⟩
    simp [h₂, Ne.symm hne]

theorem disagree_iff : (∃ d ∈ e₁.disagreements e₂, d.value = v) ↔ Disagree e₁ e₂ v := by
  constructor
  · rintro ⟨d, hd, rfl⟩
    exact ⟨d.left, d.right, mem_disagreements.1 hd⟩
  · rintro ⟨f, g, h⟩
    exact ⟨{ value := v, left := f, right := g }, mem_disagreements.2 h, rfl⟩

/-- A value that `e₁` and `e₂` bind differently is listed once. -/
theorem nodup_disagreements (e₁ e₂ : Environment) :
    ((e₁.disagreements e₂).map Environment.Disagreement.value).Nodup := by
  refine List.Sublist.nodup ?_ e₁.values.ascending.nodup
  rw [Environment.disagreements]
  induction e₁.values.entries with
  | nil => exact List.Sublist.slnil
  | cons x rest ih =>
    rw [List.filterMap_cons]
    split
    · exact ih.cons _
    · rename_i d hd
      have hvalue : d.value = x.1 := by
        split at hd
        · split at hd
          · simp at hd
          · exact Option.some.inj hd ▸ rfl
        · simp at hd
      rw [List.map_cons, List.map_cons, hvalue]
      exact ih.cons_cons _

theorem get?_agreements : (e₁.agreements e₂).get? v = some f ↔
    e₁.values.get? v = some f ∧ e₂.values.get? v = some f := by
  rw [Environment.agreements, Bindings.get?_filter_eq_some, beq_iff_eq]

/-- What both sides of a meeting say about a value that is bound differently, as `d` tells. -/
theorem yields_add (ht₀ : t₀.WellFormed) (hrs : ∀ r ∈ rs, t₀.node r.oldFormula = .atom r.old)
    (ht : t.WellFormed) (hg : t₀.Grows t) {m : Environment.Meeting} {φ ψ : (Atom → Bool) → Bool}
    {S S' : Set Atom} (hleft : t.Means m.left φ S) (hright : t.Means m.right ψ S')
    (ha : a.index < t.atomCount) (hd : t₀.Has d.left) (hd' : t₀.Has d.right) :
    Yields (m.add (Renaming.substitution rs) d a) t fun m' t' =>
      t'.Means m'.left (fun ρ => φ ρ && equation t₀ rs ρ a (some d.left))
        (S ∪ equationAtoms t₀ rs a (some d.left)) ∧
      t'.Means m'.right (fun ρ => ψ ρ && equation t₀ rs ρ a (some d.right))
        (S' ∪ equationAtoms t₀ rs a (some d.right)) ∧
      ∃ f, t'.node f = .atom a ∧ m'.values = m.values.set d.value f := by
  -- the atoms of a renamed formula are among those of its equation
  have hatoms : ∀ {g : Formula} {U : Set Atom}, U ∪ ({a} ∪ ({b | t₀.Occurs b g} \
      {b | b ∈ rs.map Renaming.atom} ∪ {b | b ∈ rs.map Renaming.old})) ⊆
      U ∪ equationAtoms t₀ rs a (some g) := by
    rintro g U b (hb | hb | ⟨hb, -⟩ | hb)
    · exact Or.inl hb
    · exact Or.inr ⟨g, rfl, Or.inl hb⟩
    · exact Or.inr ⟨g, rfl, Or.inr (Or.inl hb)⟩
    · exact Or.inr ⟨g, rfl, Or.inr (Or.inr hb)⟩
  refine (yields_mkAtom ht ha).bind fun merged t₁ ht₁ hg₁ hmerged => ?_
  have hm := means_of_node_atom ht₁ hmerged
  have hg₀₁ := hg.trans hg₁
  refine (yields_rename ht₁ (fun r hr => hg₀₁.node_atom (hrs r hr))
    (hd.means.mono hg₀₁ ht₀ ht₁)).bind fun l t₂ ht₂ hg₂ hl => ?_
  have hg₀₂ := hg₀₁.trans hg₂
  refine (yields_rename ht₂ (fun r hr => hg₀₂.node_atom (hrs r hr))
    (hd'.means.mono hg₀₂ ht₀ ht₂)).bind fun r t₃ ht₃ hg₃ hr => ?_
  have hg₁₃ := hg₂.trans hg₃
  refine (yields_mkEquals ht₃ (hm.mono hg₁₃ ht₁ ht₃) (hl.mono hg₃ ht₂ ht₃)).bind
    fun ql t₄ ht₄ hg₄ hql => ?_
  have hg₃₄ := (hg₁.trans hg₁₃).trans hg₄
  refine (yields_mkAnd ht₄ (hleft.mono hg₃₄ ht ht₄) hql).bind fun left t₅ ht₅ hg₅ hleft' => ?_
  have hg₃₅ := hg₄.trans hg₅
  refine (yields_mkEquals ht₅ (hm.mono (hg₁₃.trans hg₃₅) ht₁ ht₅) (hr.mono hg₃₅ ht₃ ht₅)).bind
    fun qr t₆ ht₆ hg₆ hqr => ?_
  have hg₅' := (hg₃₄.trans hg₅).trans hg₆
  refine (yields_mkAnd ht₆ (hright.mono hg₅' ht ht₆) hqr).bind
    fun right t₇ ht₇ hg₇ hright' => yields_pure ht₇ ⟨?_, ?_, merged, ?_, rfl⟩
  · exact (hleft'.mono (hg₆.trans hg₇) ht₅ ht₇).weaken (fun ρ => rfl) hatoms
  · exact hright'.weaken (fun ρ => rfl) hatoms
  · exact (((hg₁₃.trans hg₃₅).trans hg₆).trans hg₇).node_atom hmerged

/-- What both sides of a meeting say about all values that are bound differently. -/
theorem yields_foldlM_add (ht₀ : t₀.WellFormed)
    (hrs : ∀ r ∈ rs, t₀.node r.oldFormula = .atom r.old) :
    ∀ {zs : List (Environment.Disagreement × Renaming)} {t : FormulaTable}
      {m : Environment.Meeting} {φ ψ : (Atom → Bool) → Bool} {S S' : Set Atom},
      t.WellFormed → t₀.Grows t → (zs.map fun z => z.1.value).Nodup →
      (∀ z ∈ zs, z.2.atom.index < t₀.atomCount) →
      (∀ z ∈ zs, t₀.Has z.1.left ∧ t₀.Has z.1.right) →
      t.Means m.left φ S → t.Means m.right ψ S' →
      Yields (zs.foldlM (fun m z => Environment.Meeting.add m (Renaming.substitution rs) z.1
          z.2.atom) m) t fun m' t' =>
        t'.Means m'.left
          (fun ρ => φ ρ && zs.all fun z => equation t₀ rs ρ z.2.atom (some z.1.left))
          (S ∪ {b | ∃ z ∈ zs, b ∈ equationAtoms t₀ rs z.2.atom (some z.1.left)}) ∧
        t'.Means m'.right
          (fun ρ => ψ ρ && zs.all fun z => equation t₀ rs ρ z.2.atom (some z.1.right))
          (S' ∪ {b | ∃ z ∈ zs, b ∈ equationAtoms t₀ rs z.2.atom (some z.1.right)}) ∧
        BindsAtoms t' (zs.map fun z => (z.1.value, z.2.atom)) m.values m'.values := by
  intro zs
  induction zs with
  | nil =>
    intro t m φ ψ S S' ht _ _ _ _ hl hr
    exact yields_pure ht ⟨hl.weaken (fun ρ => by simp) Set.subset_union_left,
      hr.weaken (fun ρ => by simp) Set.subset_union_left, bindsAtoms_nil t m.values⟩
  | cons z zs ih =>
    intro t m φ ψ S S' ht hg hnodup hatoms hhas hl hr
    rw [List.map_cons, List.nodup_cons] at hnodup
    rw [List.forall_mem_cons] at hatoms hhas
    rw [List.foldlM_cons]
    refine (yields_add ht₀ hrs ht hg hl hr (Nat.lt_of_lt_of_le hatoms.1 hg.atomCount) hhas.1.1
      hhas.1.2).bind ?_
    rintro m₁ t₁ ht₁ hg₁ ⟨hl₁, hr₁, f, hf, hvalues⟩
    refine (ih ht₁ (hg.trans hg₁) hnodup.2 hatoms.2 hhas.2 hl₁ hr₁).mono ?_
    rintro m' t' ht' hg' ⟨hl', hr', hb⟩
    refine ⟨hl'.weaken (fun ρ => by rw [List.all_cons, Bool.and_assoc])
        (union_exists_cons S (fun z => equationAtoms t₀ rs z.2.atom (some z.1.left)) z zs),
      hr'.weaken (fun ρ => by rw [List.all_cons, Bool.and_assoc])
        (union_exists_cons S' (fun z => equationAtoms t₀ rs z.2.atom (some z.1.right)) z zs), ?_⟩
    rw [hvalues] at hb
    refine hb.cons ht' ?_ ?_
    · exact hg'.node_atom hf
    · rw [List.map_map]
      exact hnodup.1

/-- If `e₁` and `e₂` agree, the flow condition is the disjunction and the bindings are those that
both have. -/
theorem joined_of_agree (hnone : ∀ v, ¬ Disagree e₁ e₂ v)
    (hflow : ∀ ρ, T.holds ρ e'.flow = true ↔ T.holds ρ e₁.flow = true ∨ T.holds ρ e₂.flow = true)
    (hatoms : ∀ b, T.Occurs b e'.flow → T.Occurs b e₁.flow ∨ T.Occurs b e₂.flow)
    (hvalues : e'.values = e₁.agreements e₂) : Joined T e₁ e₂ e' where
  atoms v hv := absurd hv (hnone v)
  flow ρ := by
    rw [hflow, MeetingSide, MeetingSide, reassigned_of_none hnone, reassigned_of_none hnone]
  flow_atoms b hb := (hatoms b hb).imp id Or.inl
  values v g := by
    rw [hvalues, get?_agreements]
    simp [MeetingAtom, hnone]

theorem disagreements_eq_nil_iff : e₁.disagreements e₂ = [] ↔ ∀ v, ¬ Disagree e₁ e₂ v := by
  rw [List.eq_nil_iff_forall_not_mem]
  constructor
  · intro h v hv
    obtain ⟨d, hd, -⟩ := disagree_iff.2 hv
    exact h d hd
  · intro h d hd
    exact h d.value (disagree_iff.1 ⟨d, hd, rfl⟩)

/-- The side `e` of a meeting, by its equations. -/
theorem RenamedAll.meetingSide_iff
    (h : RenamedAll .merge Environment.Disagreement.value t t' (e₁.disagreements e₂) rs)
    (ht : t.WellFormed) (ht' : t'.WellFormed) (hT : T.WellFormed) (hg : t.Grows t')
    (hgT : t'.Grows T) (he : e.Within t) (side : Environment.Disagreement → Formula)
    (hside : ∀ d ∈ e₁.disagreements e₂, e.values.get? d.value = some (side d)) :
    (∃ ρ', AgreeOff (rs.map Renaming.old) ρ ρ' ∧ (t.holds (renamed rs ρ') e.flow &&
      ((e₁.disagreements e₂).zip rs).all fun z =>
        equation t' rs ρ' z.2.atom (some (side z.1))) = true) ↔ MeetingSide T e₁ e₂ e ρ := by
  have hpassed : ∀ d ∈ e₁.disagreements e₂, ∀ g, some (side d) = some g → t.Has g := by
    intro d hd g hg
    rw [← Option.some.inj hg]
    exact he.values _ _ (hside d hd)
  rw [h.reassigned_iff ht ht' hT hg hgT (nodup_disagreements e₁ e₂) he.flow
    (fun d => some (side d)) hpassed, MeetingSide]
  simp only [Reassigned, disagree_iff]
  refine exists_congr fun ρ₀ => and_congr_right fun _ => and_congr_left fun _ => ?_
  refine forall₃_congr fun v a g => forall₂_congr fun hv _ => imp_congr_left ?_
  constructor
  · rintro ⟨d, hd, rfl, hg⟩
    rw [hside d hd, hg]
  · intro hg
    obtain ⟨d, hd, rfl⟩ := disagree_iff.2 hv
    exact ⟨d, hd, rfl, (hside d hd).symm.trans hg⟩

/-- The renamed atoms are those for the meeting of `e₁` and `e₂`. -/
theorem RenamedAll.mem_atoms_iff_meetingAtom
    (h : RenamedAll .merge Environment.Disagreement.value t t' (e₁.disagreements e₂) rs)
    (hgT : t'.Grows T) : a ∈ rs.map Renaming.atom ↔ MeetingAtom T e₁ e₂ a := by
  rw [h.mem_atoms hgT, MeetingAtom]
  simp only [← disagree_iff, exists_exists_and_eq_and]
  rfl

/-- The atoms that the equations of the side `e` add to its flow condition. -/
theorem RenamedAll.of_mem_sideAtoms
    (h : RenamedAll .merge Environment.Disagreement.value t t' (e₁.disagreements e₂) rs)
    (ht' : t'.WellFormed) (hT : T.WellFormed) (hg : t.Grows t') (hgT : t'.Grows T) (he : e.Within t)
    (side : Environment.Disagreement → Formula)
    (hside : ∀ d ∈ e₁.disagreements e₂, e.values.get? d.value = some (side d))
    (hold : a ∉ rs.map Renaming.old) (ha : ∃ z ∈ (e₁.disagreements e₂).zip rs,
      a ∈ equationAtoms t' rs z.2.atom (some (side z.1))) :
    MeetingAtom T e₁ e₂ a ∨ ∃ v f, e.values.get? v = some f ∧ T.Occurs a f := by
  have hpassed : ∀ d ∈ e₁.disagreements e₂, ∀ g, some (side d) = some g → t'.Has g := by
    intro d hd g hside'
    exact hg.has (he.values _ _ ((hside d hd).trans hside'))
  refine (h.of_mem_equationAtoms ht' hT hgT (fun d => some (side d)) hpassed hold ha).imp ?_ ?_
  · rintro ⟨d, hd, hatom⟩
    exact ⟨d.value, disagree_iff.1 ⟨d, hd, rfl⟩, hatom⟩
  · rintro ⟨d, hd, g, hside', hocc⟩
    exact ⟨d.value, g, (hside d hd).trans hside', hocc⟩

/-- The bindings `b'` after a meeting, where those of `b` are kept if both sides agree. -/
theorem RenamedAll.get?_meeting_iff {b b' : Bindings}
    (h : RenamedAll .merge Environment.Disagreement.value t t' (e₁.disagreements e₂) rs)
    (hgT : t'.Grows T) (hb : BindsAtoms T
      (((e₁.disagreements e₂).zip rs).map fun z => (z.1.value, z.2.atom)) b b')
    (hkept : b.get? v = some g ↔ (e₁.values.get? v = some g ∧ e₂.values.get? v = some g) ∧
      ∀ a, MeetingAtom T e₁ e₂ a → ¬ T.Occurs a g) :
    b'.get? v = some g ↔
      (Disagree e₁ e₂ v ∧ ∃ a, T.mergeAtom? v = some a ∧ T.node g = .atom a) ∨
      (e₁.values.get? v = some g ∧ e₂.values.get? v = some g ∧
        ∀ a, MeetingAtom T e₁ e₂ a → ¬ T.Occurs a g) := by
  rw [h.get?_iff hgT hb, disagree_iff, hkept, and_assoc]
  refine or_congr_right (and_iff_right_of_imp ?_)
  -- a value that is bound alike is not bound differently
  rintro ⟨h₁, h₂, -⟩ ⟨f₁, f₂, hf₁, hf₂, hne⟩
  rw [h₁, Option.some.injEq] at hf₁
  rw [h₂, Option.some.injEq] at hf₂
  exact hne (hf₁.symm.trans hf₂)

/-- **Joining is exact**: what holds after it is what holds in `e₁` or in `e₂`. -/
theorem yields_join (ht : t.WellFormed) (he₁ : e₁.Within t) (he₂ : e₂.Within t) :
    Yields (e₁.join e₂) t fun e' t' => e'.Within t' ∧
      t'.Henceforth fun T => Joined T e₁ e₂ e' := by
  unfold Environment.join
  dsimp only
  split
  · -- nothing is bound differently, so nothing has to be renamed
    rename_i hempty
    have hnone := disagreements_eq_nil_iff.1 (List.isEmpty_iff.1 hempty)
    refine (yields_mkOr ht he₁.flow.means he₂.flow.means).bind fun flow t₁ ht₁ hg₁ hflow => ?_
    refine yields_pure ht₁ ⟨⟨hflow.has, fun v g hg => ?_⟩, fun T hT hgT => ?_⟩
    · exact hg₁.has (he₁.values v g (get?_agreements.1 hg).1)
    · have hmeans := hflow.mono hgT ht₁ hT
      have hgrow := hg₁.trans hgT
      refine joined_of_agree hnone (fun ρ => ?_) (fun b hb => ?_) rfl
      · rw [hmeans.holds, Bool.or_eq_true, hgrow.holds ht hT he₁.flow,
          hgrow.holds ht hT he₂.flow]
      · rw [hgrow.occurs ht hT he₁.flow, hgrow.occurs ht hT he₂.flow]
        exact hmeans.occurs hb
  -- otherwise the old meanings get new names on both sides
  refine (yields_renamings .merge Environment.Disagreement.value ht).bind
    fun rs t₁ ht₁ hg₁ hrs => ?_
  refine (yields_rename ht₁ hrs.formula (he₁.flow.means.mono hg₁ ht ht₁)).bind
    fun left t₂ ht₂ hg₂ hleft => ?_
  refine (yields_rename ht₂ (fun r hr => hg₂.node_atom (hrs.formula r hr))
    (he₂.flow.means.mono (hg₁.trans hg₂) ht ht₂)).bind fun right t₃ ht₃ hg₃ hright => ?_
  refine (yields_without ht₃ _ _).bind ?_
  rintro values t₃' - - ⟨rfl, hvalues⟩
  have hg₁₃ := hg₂.trans hg₃
  have hg₀₃ := hg₁.trans hg₁₃
  have hd : ∀ z ∈ (e₁.disagreements e₂).zip rs, t₁.Has z.1.left ∧ t₁.Has z.1.right := by
    intro z hz
    obtain ⟨h₁, h₂, -⟩ := mem_disagreements.1 (List.of_mem_zip hz).1
    exact ⟨hg₁.has (he₁.values _ _ h₁), hg₁.has (he₂.values _ _ h₂)⟩
  -- each side says what the values are that are bound differently
  refine (yields_foldlM_add ht₁ hrs.formula ht₃ hg₁₃ (hrs.map_key ▸ nodup_disagreements e₁ e₂)
    (fun z hz => ht₁.mergeAtom_lt (hrs.atom z hz)) hd (hleft.mono hg₃ ht₂ ht₃) hright).bind ?_
  rintro m t₄ ht₄ hg₄ ⟨hml, hmr, hmv⟩
  -- one of the sides holds, and the new names are eliminated
  refine (yields_mkOr ht₄ hml hmr).bind fun either t₅ ht₅ hg₅ heither => ?_
  refine (yields_eliminateAll ht₅ heither).bind fun flow t₆ ht₆ hg₆ helim => yields_pure ht₆ ?_
  obtain ⟨φ, hφ, hmeaning⟩ := helim
  have hg₄₆ := hg₅.trans hg₆
  have hvalues' : ∀ v g, values.get? v = some g ↔ (e₁.values.get? v = some g ∧
      e₂.values.get? v = some g) ∧ ∀ a ∈ rs.map Renaming.atom, ¬ t₃'.Occurs a g := fun v g => by
    rw [hvalues, get?_agreements]
  refine ⟨⟨hφ.has, (hmv.mono hg₄₆ ht₆).has fun v g hg => ?_⟩, fun T hT hgT => ?_⟩
  · exact ((hg₀₃.trans hg₄).trans hg₄₆).has (he₁.values v g ((hvalues' v g).1 hg).1.1)
  -- the rest reads the meanings in the last table
  have hg₃T := (hg₄.trans hg₄₆).trans hgT
  have hg₁T := hg₁₃.trans hg₃T
  have hmv' := hmv.mono (hg₄₆.trans hgT) hT
  have hleft' : ∀ d ∈ e₁.disagreements e₂, e₁.values.get? d.value = some d.left :=
    fun d hd => (mem_disagreements.1 hd).1
  have hright' : ∀ d ∈ e₁.disagreements e₂, e₂.values.get? d.value = some d.right :=
    fun d hd => (mem_disagreements.1 hd).2.1
  refine ⟨fun v hv => ?_, fun ρ => ?_, fun b hb => ?_, fun v g => ?_⟩
  · obtain ⟨d, hd, rfl⟩ := disagree_iff.2 hv
    obtain ⟨r, hz⟩ := hrs.exists_zip hd
    obtain ⟨g, hg⟩ := hmv'.1 _ (List.mem_map.2 ⟨_, hz, rfl⟩)
    exact ⟨r.atom, g, hg₁T.mergeAtom (hrs.atom _ hz), hg⟩
  · rw [(hφ.mono hgT ht₆ hT).holds, hmeaning,
      ← hrs.meetingSide_iff ht ht₁ hT hg₁ hg₁T he₁ Environment.Disagreement.left hleft',
      ← hrs.meetingSide_iff ht ht₁ hT hg₁ hg₁T he₂ Environment.Disagreement.right hright',
      ← exists_or]
    simp only [Bool.or_eq_true, and_or_left]
  · obtain ⟨((⟨hb, -⟩ | hb) | hb) | (⟨hb, -⟩ | hb) | hb, hold⟩ :=
      (hφ.mono hgT ht₆ hT).occurs hb
    · exact Or.inl (((hg₀₃.trans hg₃T).occurs ht hT he₁.flow).2 hb)
    · exact absurd hb hold
    · have hside := hrs.of_mem_sideAtoms ht₁ hT hg₁ hg₁T he₁ _ hleft' hold hb
      exact Or.inr (Or.inr (hside.imp_right fun ⟨v, f, hf, hocc⟩ => ⟨v, f, Or.inl hf, hocc⟩))
    · exact Or.inr (Or.inl (((hg₀₃.trans hg₃T).occurs ht hT he₂.flow).2 hb))
    · exact absurd hb hold
    · have hside := hrs.of_mem_sideAtoms ht₁ hT hg₁ hg₁T he₂ _ hright' hold hb
      exact Or.inr (Or.inr (hside.imp_right fun ⟨v, f, hf, hocc⟩ => ⟨v, f, Or.inr hf, hocc⟩))
  · refine hrs.get?_meeting_iff hg₁T hmv' ((hvalues' v g).trans ?_)
    refine and_congr_right fun hg => forall_congr' fun a => ?_
    rw [hrs.mem_atoms_iff_meetingAtom hg₁T, hg₃T.occurs ht₃ hT (hg₀₃.has (he₁.values v g hg.1))]

/-- Environments are joined to a first one, one after another. -/
inductive JoinedTo (T : FormulaTable) : Environment → List Environment → Environment → Prop
  /-- There is no other. -/
  | nil (e : Environment) : JoinedTo T e [] e
  /-- The next is joined first. -/
  | cons {e e₁ e₂ e' : Environment} {rest : List Environment} :
      Joined T e e₁ e₂ → JoinedTo T e₂ rest e' → JoinedTo T e (e₁ :: rest) e'

theorem yields_foldlM_join {es : List Environment} : ∀ {t : FormulaTable} {e : Environment},
    t.WellFormed → e.Within t → (∀ e' ∈ es, e'.Within t) →
      Yields (es.foldlM Environment.join e) t fun e' t' => e'.Within t' ∧
        t'.Henceforth fun T => JoinedTo T e es e' := by
  induction es with
  | nil =>
    intro t e ht he _
    exact yields_pure ht ⟨he, fun T _ _ => .nil e⟩
  | cons e₁ es ih =>
    intro t e ht he hes
    rw [List.forall_mem_cons] at hes
    rw [List.foldlM_cons]
    refine (yields_join ht he hes.1).bind ?_
    rintro e₂ t₁ ht₁ hg₁ ⟨he₂, hjoined⟩
    refine (ih ht₁ he₂ fun e' he' => (hes.2 e' he').mono hg₁).mono ?_
    rintro e' t' _ hg' ⟨he', hrest⟩
    exact ⟨he', fun T hT hgT => .cons (hjoined T hT (hg'.trans hgT)) (hrest T hT hgT)⟩

/-- The join of any number of environments; none if there are none. -/
def JoinedAll (T : FormulaTable) : List Environment → Option Environment → Prop
  | [], r => r = none
  | e :: es, r => ∃ e', r = some e' ∧ JoinedTo T e es e'

theorem yields_joinAll (ht : t.WellFormed) {es : List Environment}
    (hes : ∀ e ∈ es, e.Within t) :
    Yields (Environment.joinAll es) t fun r t' => (∀ e ∈ r, e.Within t') ∧
      t'.Henceforth fun T => JoinedAll T es r := by
  cases es with
  | nil => exact yields_pure ht ⟨by simp, fun T _ _ => rfl⟩
  | cons e es =>
    rw [List.forall_mem_cons] at hes
    refine (yields_foldlM_join ht hes.1 hes.2).bind ?_
    rintro e' t₁ ht₁ hg₁ ⟨he', hjoined⟩
    exact yields_pure ht₁ ⟨by simpa using he', fun T hT hgT => ⟨e', rfl, hjoined T hT hgT⟩⟩

/-! ### Questions -/

theorem yields_proves (ht : t.WellFormed) (he : e.Within t) (hf : t.Has f) :
    Yields (e.proves f) t fun b _ => b = true ↔
      ∀ ρ, t.holds ρ e.flow = true → t.holds ρ f = true := by
  refine (yields_mkNot ht hf.means).bind fun n t₁ ht₁ hg₁ hn => ?_
  refine (yields_mkAnd ht₁ (he.flow.means.mono hg₁ ht ht₁) hn).bind fun c t₂ ht₂ hg₂ hc => ?_
  refine (yields_isSatisfiable ht₂ c).bind fun b t₃ ht₃ _ hb => yields_pure ht₃ ?_
  rw [Bool.not_eq_true', ← Bool.not_eq_true, hb.2, not_exists]
  refine forall_congr' fun ρ => ?_
  rw [hc.holds, Bool.and_eq_true, Bool.not_eq_true', not_and, Bool.not_eq_false]

theorem yields_allows (ht : t.WellFormed) (he : e.Within t) (hf : t.Has f) :
    Yields (e.allows f) t fun b _ => b = true ↔
      ∃ ρ, t.holds ρ e.flow = true ∧ t.holds ρ f = true := by
  refine (yields_mkAnd ht he.flow.means hf.means).bind fun c t₁ ht₁ hg₁ hc => ?_
  refine (yields_isSatisfiable ht₁ c).mono fun b t₂ _ _ hb => ?_
  rw [hb.2]
  refine exists_congr fun ρ => ?_
  rw [hc.holds, Bool.and_eq_true]

theorem yields_feasible (ht : t.WellFormed) (e : Environment) :
    Yields e.feasible t fun b _ => b = true ↔ ∃ ρ, t.holds ρ e.flow = true :=
  (yields_isSatisfiable ht e.flow).mono fun _ _ _ _ hb => hb.2

/-- The environments `e₁` and `e₂` have the same bindings, and their flow conditions are
satisfied by the same assignments. -/
def SaysTheSame (T : FormulaTable) (e₁ e₂ : Environment) : Prop :=
  e₁.values = e₂.values ∧ ∀ ρ, T.holds ρ e₁.flow = T.holds ρ e₂.flow

theorem SaysTheSame.refl (T : FormulaTable) (e : Environment) : SaysTheSame T e e :=
  ⟨rfl, fun _ => rfl⟩

theorem SaysTheSame.symm (h : SaysTheSame T e e') : SaysTheSame T e' e :=
  ⟨h.1.symm, fun ρ => (h.2 ρ).symm⟩

theorem SaysTheSame.trans (h : SaysTheSame T e e₁) (h' : SaysTheSame T e₁ e') :
    SaysTheSame T e e' :=
  ⟨h.1.trans h'.1, fun ρ => (h.2 ρ).trans (h'.2 ρ)⟩

/-- What a join says depends only on what `e₁` and `e₂` say. -/
theorem Joined.saysTheSame (h : Joined T e₁ e₂ e) {e₁' : Environment}
    (h' : Joined T e₁' e₂ e') (hsame : SaysTheSame T e₁ e₁') : SaysTheSame T e e' := by
  obtain ⟨hvalues, hflow⟩ := hsame
  have hdisagree : Disagree e₁ e₂ = Disagree e₁' e₂ := by
    funext v
    rw [Disagree, Disagree, hvalues]
  have hatom : MeetingAtom T e₁ e₂ = MeetingAtom T e₁' e₂ := by
    funext a
    rw [MeetingAtom, MeetingAtom, hdisagree]
  refine ⟨Bindings.eq_of_get? fun v g => ?_, fun ρ => ?_⟩
  · rw [h.values, h'.values, hdisagree, hatom, hvalues]
  · have hleft : MeetingSide T e₁ e₂ e₁ ρ ↔ MeetingSide T e₁' e₂ e₁' ρ := by
      simp only [MeetingSide, Reassigned, hdisagree, hvalues, hflow]
    have hright : MeetingSide T e₁ e₂ e₂ ρ ↔ MeetingSide T e₁' e₂ e₂ ρ := by
      rw [MeetingSide, MeetingSide, hdisagree]
    rw [Bool.eq_iff_iff, h.flow, h'.flow, hleft, hright]

theorem yields_equivalent (ht : t.WellFormed) (he₁ : e₁.Within t) (he₂ : e₂.Within t) :
    Yields (e₁.equivalent e₂) t fun b t' =>
      t'.Henceforth fun T => b = true ↔ SaysTheSame T e₁ e₂ := by
  unfold Environment.equivalent
  split
  · rename_i hvalues
    split
    · rename_i hflow
      exact yields_pure ht fun T _ _ => by simp [SaysTheSame, hvalues, hflow]
    · -- the conditions are equivalent if no assignment tells them apart
      refine (yields_mkEquals ht he₁.flow.means he₂.flow.means).bind fun q t₁ ht₁ hg₁ hq => ?_
      refine (yields_mkNot ht₁ hq).bind fun n t₂ ht₂ hg₂ hn => ?_
      refine (yields_isSatisfiable ht₂ n).bind fun b t₃ ht₃ hg₃ hb => yields_pure ht₃ ?_
      intro T hT hgT
      have hgrow := ((hg₁.trans hg₂).trans hg₃).trans hgT
      rw [Bool.not_eq_true', ← Bool.not_eq_true, hb.2, not_exists, SaysTheSame]
      simp only [hvalues, true_and]
      refine forall_congr' fun ρ => ?_
      rw [hn.holds, Bool.not_eq_true', Bool.not_eq_false, beq_iff_eq,
        hgrow.holds ht hT he₁.flow, hgrow.holds ht hT he₂.flow]
  · rename_i hvalues
    exact yields_pure ht fun T _ _ => by simp [SaysTheSame, hvalues]

end FlowFacts
