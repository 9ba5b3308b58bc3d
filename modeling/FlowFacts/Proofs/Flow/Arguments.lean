import FlowFacts.Proofs.Flow.Atoms
import FlowFacts.Proofs.Flow.Kept
import FlowFacts.Proofs.Flow.Operations
import FlowFacts.Proofs.Flow.Reported

/-!
# Arguments keep their identity

An argument of a function is defined once, before the first instruction, and nothing defines it
again: no edge leads back to the entry.  So its atom is never renamed, and the argument is bound
to the atom in every environment that an analysis stores.  What is reported on an argument is
therefore about the argument itself, and not about a formula made up for it.

## Main definitions

* `Environment.BindsAtom` — a value is bound to its own atom.

## Main results

* `arguments_bound` — arguments are bound to their own atoms, and facts are about these.
-/

namespace FlowFacts

open FormulaM FormulaTable Program

variable {t t' T : FormulaTable} {p : Program} {f : FunctionId} {e : Environment} {v : ValueId}
  {g : Formula}

/-- The value `v` is bound to `g`, and `g` is the atom of `v` itself. -/
def Environment.BindsAtom (e : Environment) (T : FormulaTable) (v : ValueId) (g : Formula) :
    Prop :=
  e.values.get? v = some g ∧ ∃ a, T.valueAtom? v = some a ∧ T.node g = .atom a

/-- The formula that is asked for is the one that `v` is bound to, and nothing is added to the
table `t`. -/
theorem Environment.BindsAtom.argumentFormula (h : e.BindsAtom T v g) (t : FormulaTable) :
    e.argumentFormula v t = (g, t) := by
  simp only [Environment.argumentFormula, h.1]
  rfl

theorem Environment.BindsAtom.has (h : e.BindsAtom T v g) : T.Has g := by
  obtain ⟨-, a, -, hnode⟩ := h
  exact has_of_node_atom hnode

/-- The arguments of `f` are never defined again, so they may be watched without any condition on
how values are used. -/
theorem Program.Local.watched_boolArgs (h : p.Local f) :
    p.Watched f (· ∈ p.boolArgs f) p.Atomic where
  closed hv hfrom := absurd hfrom.computed (h.atomic_of_arg hv).2.2
  dominates _ _ hv hfrom := absurd hfrom.computed (h.atomic_of_arg hv).2.2
  atomic _ hw := hw
  computed hv hcomputed := absurd hcomputed hv.2.2
  operand _ _ _ _ hw hcomputed := absurd hcomputed hw.2.2

/-- Where `e` binds the arguments of `f` to their atoms, the facts are about these atoms, also if
the table has grown from `t` to `T`. -/
theorem argumentFacts_of_bindsAtom (ht : t.WellFormed) (hT : T.WellFormed) (hg : t.Grows T)
    (he : e.Within t) (hbinds : ∀ v ∈ p.boolArgs f, ∃ g, e.BindsAtom t v g) :
    List.Forall₂ (fun x fact => fact.name = x.1 ∧
      ∃ g, e.BindsAtom t x.2 g ∧ e.Knows t g fact.truth)
      (p.namedBoolArgs f) (argumentFacts p f e T).1 := by
  obtain ⟨hT', hg', hfacts⟩ := yields_argumentFacts hT (he.mono hg) p f
  have hfacts := hfacts _ hT' (.refl _)
  refine List.forall₂_iff_zip.2 ⟨hfacts.length_eq, fun {x fact} hmem => ?_⟩
  obtain ⟨hname, g', hformula, hknows⟩ := (List.forall₂_iff_zip.1 hfacts).2 hmem
  obtain ⟨g, hbound⟩ := hbinds x.2 (p.mem_boolArgs_of_named (List.of_mem_zip hmem).1)
  -- the formula asked for is the one that the argument is bound to
  obtain rfl : g' = g := by
    rcases hformula with hget | ⟨hnone, -⟩
    · exact Option.some.inj (hget.symm.trans hbound.1)
    · cases hnone.symm.trans hbound.1
  exact ⟨hname, g', hbound,
    (Environment.knows_iff (hg.trans hg') ht hT' he hbound.has).1 hknows⟩

/-- **Arguments keep their identity.**  Take a program `p` that is accepted, a function `f` with a
body, a model `m` of checks and a `limit`.  Whatever environment `e` the analysis stores or
notes, at any time, every argument that is a truth value is bound in it to its own atom.  So the
formula that is asked for when facts are reported is this atom, and no other formula is made,
whatever was added to the table in between; and the facts are, in order, what the flow condition
says of the atoms of the arguments. -/
theorem arguments_bound {text : String} {p : Program} {f : FunctionId} {m : CheckModel}
    {limit : Nat} {t t' : FormulaTable} {events : Array Event} {e : Environment}
    (hload : Source.load text = .ok p) (hf : f ∈ p.bodies) (ht : t.Reachable)
    (hstores : ({ program := p, function := f, model := m.model, visitLimit := limit } :
      Task).Stores t events t' e) :
    (∀ v ∈ p.boolArgs f, ∃ g, e.BindsAtom t' v g ∧ ∀ T, e.argumentFormula v T = (g, T)) ∧
      ∀ T, Relation.ReflTransGen Operates t' T →
        List.Forall₂ (fun x fact => fact.name = x.1 ∧
          ∃ g, e.BindsAtom t' x.2 g ∧ e.Knows t' g fact.truth)
          (p.namedBoolArgs f) (argumentFacts p f e T).1 := by
  have hlocal := Source.local_of_load hload hf
  have hreg := regular_of_hasBody hlocal.toHasBody m limit
  obtain ⟨ht', hwithin, b, k, hplace⟩ := hstores.exists_place hreg hlocal.toHasBody ht.wellFormed
    fun ht' hopened => keeps_binds hlocal ht' hlocal.watched_boolArgs hopened
  -- the arguments are among the values that every step keeps bound to their formulas
  have hbinds : ∀ v ∈ p.boolArgs f, ∃ g, e.BindsAtom t' v g := by
    intro v hv
    obtain ⟨g, hcanonical, hget⟩ := hplace.kept v (hlocal.kept_of_arg hv hv)
    exact ⟨g, hget, hcanonical.of_atomic (hlocal.atomic_of_arg hv)⟩
  refine ⟨fun v hv => ?_, fun T hT => ?_⟩
  · obtain ⟨g, hg⟩ := hbinds v hv
    exact ⟨g, hg, hg.argumentFormula⟩
  · obtain ⟨hT, hgrows⟩ := kept_of_reflTransGen ht' hT
    exact argumentFacts_of_bindsAtom ht' hT hgrows hwithin hbinds

/-- In the loop that negates a truth value, the argument is bound to its atom at the annotation,
and the fact on it is what the flow condition says of the atom. -/
theorem negating_point_argument :
    ∃ a events t' e g, negatingTask.analyse #[] {} = ((.ok a, events), t') ∧
      a.points.lookup "here" = some e ∧ e.BindsAtom t' ⟨0⟩ g ∧ e.argumentFormula ⟨0⟩ t' = (g, t') ∧
      ∃ fact, (argumentFacts negatingProgram ⟨0⟩ e t').1 = [fact] ∧ fact.name = "x" := by
  have hload : Source.load negatingText = .ok negatingProgram := by decide +kernel
  have hpoint : ((negatingTask.analyse #[] {}).1.1.toOption.bind
      fun a => a.points.lookup "here").isSome = true := by decide +kernel
  have hargs : negatingProgram.namedBoolArgs ⟨0⟩ = [("x", ⟨0⟩)] := by decide
  rcases hresult : negatingTask.analyse #[] {} with ⟨⟨r, events⟩, t'⟩
  rw [hresult] at hpoint
  cases r with
  | error => cases hpoint
  | ok a =>
    obtain ⟨e, he⟩ := Option.isSome_iff_exists.1 hpoint
    obtain ⟨hbound, hfacts⟩ :=
      arguments_bound (m := {}) hload (by decide) .empty (.point hresult he)
    obtain ⟨g, hg, hformula⟩ := hbound ⟨0⟩ (by decide)
    have hfact := hfacts t' .refl
    rw [hargs, List.forall₂_cons_left_iff] at hfact
    obtain ⟨fact, _, ⟨hname, -⟩, hnil, heq⟩ := hfact
    rw [List.forall₂_nil_left_iff.1 hnil] at heq
    exact ⟨a, events, t', e, g, rfl, he, hg, hformula t', fact, heq, hname⟩

end FlowFacts
