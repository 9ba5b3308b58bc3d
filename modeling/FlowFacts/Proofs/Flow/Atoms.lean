import FlowFacts.Proofs.Flow.Invariant
import FlowFacts.Proofs.Flow.Soundness
import FlowFacts.Proofs.Source.Local

/-!
# Old meanings do not leak

Where a value gets a new meaning, its atom is renamed to a fresh one that takes over the old
meaning, and the fresh one is eliminated before the step is over.  So the environments that an
analysis stores never mention such an atom: all their atoms are those of values of the
function, or those that such values have at meetings.

## Main definitions

* `Environment.About` — an environment mentions the atoms of some values only.
* `Task.Stores` — the environments that an analysis stores or notes.

## Main results

* `keeps_about` — no step of an analysis brings in another atom.
* `Task.Stores.exists_place` — what every step keeps holds of whatever is stored.
* `about_of_stores` — no fresh atom is stored.
-/

namespace FlowFacts

open FormulaTable Program

variable {T : FormulaTable} {p : Program} {f : FunctionId} {S : ValueId → Prop} {a : Atom}
  {e e₁ e₂ e' : Environment} {v w : ValueId} {g : Formula} {b c : BlockId} {op : Operation}
  {r : Option Formula}

/-! ### Environments about some values -/

/-- The atom `a` stands for one of the values `S`, as such or at meetings. -/
def FormulaTable.AtomOf (T : FormulaTable) (S : ValueId → Prop) (a : Atom) : Prop :=
  ∃ v, S v ∧ (T.valueAtom? v = some a ∨ T.mergeAtom? v = some a)

/-- The environment `e` binds values of `S` only, and mentions no atoms but theirs. -/
structure Environment.About (e : Environment) (T : FormulaTable) (S : ValueId → Prop) : Prop where
  /-- Only these are bound. -/
  bound : ∀ v g, e.values.get? v = some g → S v
  /-- What they are bound to. -/
  values : ∀ v g, e.values.get? v = some g → ∀ a, T.Occurs a g → T.AtomOf S a
  /-- The flow condition. -/
  flow : ∀ a, T.Occurs a e.flow → T.AtomOf S a

theorem Environment.About.erase (h : e.About T S) (v : ValueId) : (e.erase v).About T S where
  bound w g hw := h.bound w g (Bindings.get?_erase_eq_some.1 hw).1
  values w g hw := h.values w g (Bindings.get?_erase_eq_some.1 hw).1
  flow := h.flow

theorem Environment.About.set (h : e.About T S) (hv : S v)
    (hg : ∀ a, T.Occurs a g → T.AtomOf S a) : (e.set v g).About T S where
  bound w g' hw := by
    rw [Environment.set, Bindings.get?_set] at hw
    split at hw
    · rename_i hwv
      exact hwv ▸ hv
    · exact h.bound w g' hw
  values w g' hw := by
    rw [Environment.set, Bindings.get?_set] at hw
    split at hw
    · cases hw
      exact hg
    · exact h.values w g' hw
  flow := h.flow

/-- The atom of `v`, taken as a formula `g`, mentions nothing but itself. -/
theorem atomOf_of_node (hT : T.WellFormed) (hv : S v) (ha : T.valueAtom? v = some a)
    (hg : T.node g = .atom a) : ∀ a', T.Occurs a' g → T.AtomOf S a' := by
  intro a' hocc
  have haa' : a' = a := (means_of_node_atom hT hg).occurs hocc
  exact ⟨v, hv, Or.inl (haa' ▸ ha)⟩

theorem Renewed.about (hT : T.WellFormed) (h : Renewed T e v a g e') (hv : S v)
    (he : e.About T S) : e'.About T S where
  bound w g' hw := by
    rcases (h.values w g').1 hw with ⟨rfl, -⟩ | ⟨-, hw, -⟩
    · exact hv
    · exact he.bound w g' hw
  values w g' hw := by
    rcases (h.values w g').1 hw with ⟨-, rfl⟩ | ⟨-, hw, -⟩
    · exact atomOf_of_node hT hv h.atom h.formula
    · exact he.values w g' hw
  flow a' hocc := he.flow a' (h.flow_atoms a' hocc).1

theorem Assumed.about (h : Assumed T e g e') (he : e.About T S)
    (hg : ∀ a, T.Occurs a g → T.AtomOf S a) : e'.About T S where
  bound w g' hw := he.bound w g' (h.values ▸ hw)
  values w g' hw := he.values w g' (h.values ▸ hw)
  flow a hocc := (h.flow_atoms a hocc).elim (he.flow a) (hg a)

theorem BoundTo.about (hT : T.WellFormed) {params : List (ValueId × Option Formula)}
    (h : BoundTo T e params e') (he : e.About T S) (hparams : ∀ v ∈ params.map Prod.fst, S v)
    (hpassed : ∀ v g, (v, some g) ∈ params → ∀ a, T.Occurs a g → T.AtomOf S a) :
    e'.About T S where
  bound w g hw := by
    rcases (h.values w g).1 hw with ⟨hmem, -⟩ | ⟨-, hw, -⟩
    · exact hparams w hmem
    · exact he.bound w g hw
  values w g hw := by
    rcases (h.values w g).1 hw with ⟨hmem, a, ha, hnode⟩ | ⟨-, hw, -⟩
    · exact atomOf_of_node hT (hparams w hmem) ha hnode
    · exact he.values w g hw
  flow a hocc := by
    rcases h.flow_atoms a hocc with hocc | ⟨v, hv, ha⟩ | ⟨v, g, hmem, hocc⟩
    · exact he.flow a hocc
    · exact ⟨v, hparams v hv, Or.inl ha⟩
    · exact hpassed v g hmem a hocc

theorem Joined.about (hT : T.WellFormed) (h : Joined T e₁ e₂ e') (h₁ : e₁.About T S)
    (h₂ : e₂.About T S) : e'.About T S where
  bound w g hw := by
    rcases (h.values w g).1 hw with ⟨⟨g₁, _, hw₁, -⟩, -⟩ | ⟨hw₁, -⟩
    · exact h₁.bound w g₁ hw₁
    · exact h₁.bound w g hw₁
  values w g hw := by
    rcases (h.values w g).1 hw with ⟨⟨g₁, _, hw₁, -⟩, a, ha, hnode⟩ | ⟨hw₁, -⟩
    · -- where the two sides differ, the value is bound to its atom for meetings
      intro a' hocc
      have haa' : a' = a := (means_of_node_atom hT hnode).occurs hocc
      exact ⟨w, h₁.bound w g₁ hw₁, Or.inr (haa' ▸ ha)⟩
    · exact h₁.values w g hw₁
  flow a hocc := by
    rcases h.flow_atoms a hocc with hocc | hocc | ⟨v, ⟨g, _, hv, -⟩, ha⟩ | ⟨v, g, hv | hv, hocc⟩
    · exact h₁.flow a hocc
    · exact h₂.flow a hocc
    · exact ⟨v, h₁.bound v g hv, Or.inr ha⟩
    · exact h₁.values v g hv a hocc
    · exact h₂.values v g hv a hocc

/-! ### Steps of an analysis -/

theorem Fetched.about (hT : T.WellFormed) (h : Fetched T p e v r e')
    (hv : p.constant? v = none → S v) (he : e.About T S) :
    e'.About T S ∧ ∀ g ∈ r, ∀ a, T.Occurs a g → T.AtomOf S a := by
  cases h with
  | bound hg =>
    refine ⟨he, ?_⟩
    rintro _ ⟨⟩
    exact he.values v _ hg
  | constant _ _ hmeans _ =>
    refine ⟨he, ?_⟩
    rintro _ ⟨⟩ a hocc
    exact absurd (hmeans.occurs hocc) (Set.notMem_empty a)
  | renewed _ hconst _ hrenewed =>
    refine ⟨hrenewed.about hT (hv hconst) he, ?_⟩
    rintro _ ⟨⟩
    exact atomOf_of_node hT (hv hconst) hrenewed.atom hrenewed.formula
  | other _ _ => exact ⟨he, by simp⟩

theorem Combined.about {lhs rhs : ValueId} {mk : Formula → Formula → FormulaM Formula}
    {onBools : Bool → Bool → Bool} (hT : T.WellFormed) (h : Combined T p e lhs rhs mk onBools r e')
    (hl : p.constant? lhs = none → S lhs) (hr : p.constant? rhs = none → S rhs) (he : e.About T S) :
    e'.About T S ∧ ∀ g ∈ r, ∀ a, T.Occurs a g → T.AtomOf S a := by
  cases h with
  | both hx hy hmeans _ =>
    obtain ⟨he₁, hxa⟩ := hx.about hT hl he
    obtain ⟨he₂, hya⟩ := hy.about hT hr he₁
    refine ⟨he₂, ?_⟩
    rintro _ ⟨⟩ a hocc
    rcases hmeans.occurs hocc with hocc | hocc
    · exact hxa _ rfl a hocc
    · exact hya _ rfl a hocc
  | missing hx hy _ =>
    obtain ⟨he₁, -⟩ := hx.about hT hl he
    obtain ⟨he₂, -⟩ := hy.about hT hr he₁
    exact ⟨he₂, by simp⟩

theorem Resulted.about (hT : T.WellFormed) (h : Resulted T p e op r e')
    (hop : ∀ w ∈ op.operands, p.constant? w = none → S w) (he : e.About T S) :
    e'.About T S ∧ ∀ g ∈ r, ∀ a, T.Occurs a g → T.AtomOf S a := by
  cases h with
  | not hx hmeans _ =>
    obtain ⟨he₁, hxa⟩ := hx.about hT (hop _ (by simp [Operation.operands])) he
    refine ⟨he₁, ?_⟩
    rintro _ ⟨⟩ a hocc
    exact hxa _ rfl a (hmeans.occurs hocc)
  | notOther hx =>
    exact ⟨(hx.about hT (hop _ (by simp [Operation.operands])) he).1, by simp⟩
  | logical _ hcombined | equality _ _ hcombined =>
    exact hcombined.about hT (hop _ (by simp [Operation.operands]))
      (hop _ (by simp [Operation.operands])) he
  | arithmetic _ | comparison _ => exact ⟨he, by simp⟩

theorem Transferred.about (hT : T.WellFormed) (h : Transferred T p v e e') (hv : S v)
    (hop : p.RefersTo v S) (he : e.About T S) : e'.About T S := by
  cases h with
  | quiet _ => exact he
  | call _ _ hrenewed => exact hrenewed.about hT hv he
  | callOther _ _ => exact he.erase v
  | computed hopv hresulted =>
    obtain ⟨he₁, hg⟩ := hresulted.about hT (hop _ hopv) he
    exact he₁.set hv (hg _ rfl)
  | forgotten hopv hresulted => exact (hresulted.about hT (hop _ hopv) he).1.erase v

theorem Refined.about {catalogue : Catalogue} (hT : T.WellFormed)
    (h : Refined T p catalogue v e e') (hop : p.RefersTo v S) (he : e.About T S) :
    e'.About T S := by
  cases h with
  | check hcond hfetched hassumed =>
    obtain ⟨⟨callee, args, hcall, hmem⟩, -⟩ := mem_operands_of_condition? hcond
    obtain ⟨he₁, hg⟩ := hfetched.about hT (hop _ hcall _ hmem) he
    exact hassumed.about he₁ (hg _ rfl)
  | none _ => exact he

theorem PassedTo.about {pairs : List (ValueId × ValueId)}
    {bound : List (ValueId × Option Formula)} (hT : T.WellFormed)
    (h : PassedTo T p e pairs bound e')
    (hargs : ∀ x ∈ pairs, p.constant? x.2 = none → S x.2) (he : e.About T S) :
    e'.About T S ∧ (∀ v g, (v, some g) ∈ bound → ∀ a, T.Occurs a g → T.AtomOf S a) ∧
      ∀ v ∈ bound.map Prod.fst, v ∈ pairs.map Prod.fst := by
  induction h with
  | nil => exact ⟨he, by simp, by simp⟩
  | bool _ hfetched _ ih =>
    rw [List.forall_mem_cons] at hargs
    obtain ⟨he₁, hg⟩ := hfetched.about hT hargs.1 he
    obtain ⟨he', hpassed, hsub⟩ := ih hargs.2 he₁
    refine ⟨he', fun v g' hmem => ?_, fun v hv => ?_⟩
    · rcases List.mem_cons.1 hmem with heq | hmem
      · cases heq
        exact hg g' rfl
      · exact hpassed v g' hmem
    · rw [List.map_cons, List.mem_cons] at hv ⊢
      exact hv.imp id (hsub v)
  | other _ _ ih =>
    rw [List.forall_mem_cons] at hargs
    obtain ⟨he', hpassed, hsub⟩ := ih hargs.2 (he.erase _)
    refine ⟨he', hpassed, fun v hv => ?_⟩
    rw [List.map_cons, List.mem_cons]
    exact Or.inr (hsub v hv)

theorem Entered.about {target : Target} (hT : T.WellFormed) (h : Entered T p target e e')
    (hparams : ∀ v ∈ (p.block target.block).params, S v)
    (hargs : ∀ w ∈ target.args, p.constant? w = none → S w) (he : e.About T S) :
    e'.About T S := by
  obtain ⟨params, e₁, hpassed, hbound⟩ := h
  have hpairs : ∀ x ∈ p.passed target, p.constant? x.2 = none → S x.2 := fun x hx =>
    hargs x.2 (List.of_mem_zip hx).2
  obtain ⟨he₁, hformulas, hsub⟩ := hpassed.about hT hpairs he
  refine hbound.about hT he₁ (fun v hv => hparams v ?_) hformulas
  exact (map_fst_zip_sublist _ _).subset (hsub v hv)

/-! ### The whole analysis -/

theorem Crosses.about (hlocal : p.Local f) (hT : T.WellFormed) (hb : b ∈ (p.function f).blocks)
    (h : Crosses T p b e c e') (he : e.About T (p.Owns f)) : e'.About T (p.Owns f) := by
  have hc := hlocal.mem_blocks_of_edge hb h.edge
  obtain ⟨op, target, e₁, hterm, -, rfl, hargs, hentered, hfrom⟩ := h.exists_entered
  -- the values that a terminator refers to are its operands
  have hoperand : ∀ w ∈ op.operands, p.constant? w = none → p.Owns f w := by
    intro w hw hconst
    obtain ⟨v, hv, hop, -⟩ := terminator?_eq_some hterm
    exact hlocal.refers hb hv op hop w hw hconst
  refine hentered.about hT (fun v hv => ⟨_, hc, Or.inl hv⟩) (fun w hw => hoperand w (hargs w hw)) ?_
  rcases hfrom with rfl | ⟨cond, _, _, _, _, e₀, rfl, hdecided, hassumed, hsub⟩
  · exact he
  · obtain ⟨he₀, hg⟩ := (hdecided.fetched (hlocal.isBool_of_condBranch hb hterm)).about hT
      (hoperand cond List.mem_cons_self) he
    exact hassumed.about he₀ fun a hocc => hg _ rfl a (hsub a hocc)

theorem RenewedAll.about {vs : List ValueId} (hT : T.WellFormed) (h : RenewedAll T vs e e')
    (hvs : ∀ v ∈ vs, S v) (he : e.About T S) : e'.About T S := by
  induction h with
  | nil => exact he
  | cons hrenewed _ ih =>
    rw [List.forall_mem_cons] at hvs
    exact ih hvs.2 (hrenewed.about hT hvs.1 he)

theorem Opened.about (hbody : p.HasBody f) (hT : T.WellFormed) (h : Opened T p f e') :
    e'.About T (p.Owns f) := by
  obtain ⟨e, -, hnone, hempty, hrenewed⟩ := h
  have he : e.About T (p.Owns f) := by
    refine ⟨fun v g hv => ?_, fun v g hv => ?_, fun a hocc => absurd hocc (hnone a)⟩ <;>
      simp [hempty] at hv
  apply hrenewed.about hT _ he
  intro v hv
  obtain ⟨hv, -⟩ := List.mem_filter.1 hv
  obtain ⟨x, hx, rfl⟩ := List.mem_map.1 hv
  exact ⟨_, List.mem_cons_self, Or.inl (hbody.built.arg hbody.index_lt hx)⟩

/-- No step of an analysis brings in an atom other than those of values of the function. -/
theorem keeps_about {task : Task} {catalogue : Catalogue} {start : Environment}
    (hlocal : task.program.Local task.function) (hT : T.WellFormed)
    (hopened : Opened T task.program task.function start) :
    task.Keeps catalogue.rule T start fun _ _ e =>
      e.About T (task.program.Owns task.function) where
  start := hopened.about hlocal.toHasBody hT
  step hb hv hstepped he := by
    obtain ⟨e₁, htransferred, hrefined⟩ := hstepped
    have hblock := hlocal.mem_blocks_of_reaches hb
    have hmem := List.mem_of_getElem? hv
    have hrefers := hlocal.refers hblock hmem
    have he₁ := htransferred.about hT ⟨_, hblock, Or.inr hmem⟩ hrefers he
    exact Refined.about hT hrefined hrefers he₁
  cross hb hcross he := hcross.about hlocal hT (hlocal.mem_blocks_of_reaches hb) he
  join _ hjoined h₁ h₂ := hjoined.about hT h₁ h₂

/-- The environments `e` that an analysis stores or notes, with the table `t'` at that time:
after any number of visits, those that blocks were visited with and those at the ends of edges,
also if the analysis has no result in the end; and those at the annotations. -/
inductive Task.Stores (task : Task) (t : FormulaTable) (events : Array Event)
    (t' : FormulaTable) (e : Environment) : Prop
  /-- A block was visited with it. -/
  | input {n i : Nat} {start : Environment} {t₁ : FormulaTable} {s : Sweep}
      {events' : Array Event} : task.atStart t = (start, t₁) →
      task.settle start n (.start task.order.length) events t₁ = ((.ok s, events'), t') →
      s.input? i = some e → task.Stores t events t' e
  /-- It is at the end of an edge. -/
  | edge {n i : Nat} {start : Environment} {t₁ : FormulaTable} {s : Sweep}
      {events' : Array Event} {c : BlockId} : task.atStart t = (start, t₁) →
      task.settle start n (.start task.order.length) events t₁ = ((.ok s, events'), t') →
      s.edge? i c = some e → task.Stores t events t' e
  /-- It was noted at an annotation. -/
  | point {result : Analysis} {events' : Array Event} {name : String} :
      task.analyse events t = ((.ok result, events'), t') →
      result.points.lookup name = some e → task.Stores t events t' e

/-- After any number `n` of visits, a search has come to its state `s` by steps that `SweepsTo`
describes, and what is pending covers all that is not settled. -/
theorem sweepsTo_of_settle {task : Task} {R : Model.Rule} (hreg : task.Regular R)
    {t t₁ t' : FormulaTable} {events events' : Array Event} {n : Nat} {start : Environment}
    {s : Sweep} (ht : t.WellFormed) (hstart : task.atStart t = (start, t₁))
    (hs : task.settle start n (.start task.order.length) events t₁ = ((.ok s, events'), t')) :
    t'.WellFormed ∧ Opened t' task.program task.function start ∧
      SweepsTo R task t' start s ∧ Swept R task start t' s s.pending := by
  obtain ⟨ht₁, -, hwithin, hopened⟩ := yields_atStart ht task
  rw [hstart] at ht₁ hwithin hopened
  obtain ⟨ht', hgrows, hends, hswept⟩ := leadsTo_settle (n := n) hreg ht₁ hwithin swept_start
    counted_start (fun T _ _ => .start) events
  rw [hs] at ht' hgrows hends hswept
  exact ⟨ht', hopened t' ht' hgrows, hends t' ht' (.refl t'), (hswept s rfl).1⟩

/-- An environment `e` that is stored is in the table, and a property `At` that the steps of an
analysis keep holds of it. -/
theorem Task.Stores.exists_place {task : Task} {R : Model.Rule} {t t' : FormulaTable}
    {events : Array Event} {At : BlockId → Nat → Environment → Prop} (hreg : task.Regular R)
    (hbody : task.program.HasBody task.function) (ht : t.WellFormed)
    (hstores : task.Stores t events t' e)
    (hkeeps : ∀ {start}, t'.WellFormed → Opened t' task.program task.function start →
      task.Keeps R t' start At) :
    t'.WellFormed ∧ e.Within t' ∧ ∃ b k, At b k e := by
  cases hstores with
  | @input n i _ _ s _ hstart hs he =>
    obtain ⟨ht', hopened, hsweeps, hswept⟩ := sweepsTo_of_settle hreg ht hstart hs
    obtain ⟨b, hb⟩ := hsweeps.exists_block (i := i) (Or.inl (by simp [he]))
    exact ⟨ht', hswept.input_within he, b, 0,
      ((hkeeps ht' hopened).sweepsTo hbody hsweeps).1 hb he⟩
  | @edge n i _ _ s _ c hstart hs he =>
    obtain ⟨ht', hopened, hsweeps, hswept⟩ := sweepsTo_of_settle hreg ht hstart hs
    have hmem := mem_edgesFrom_of_edge? he
    obtain ⟨b, hb⟩ := hsweeps.exists_block (Or.inr (List.ne_nil_of_mem hmem))
    exact ⟨ht', hswept.edge_within hmem, c, 0,
      ((hkeeps ht' hopened).sweepsTo hbody hsweeps).2 hb hmem⟩
  | point hresult he =>
    obtain ⟨ht', start, s, ha⟩ := exists_analysed hreg ht hresult
    obtain ⟨b, k, _, _, -, -, -, hplace⟩ := (hkeeps ht' ha.opened).noted hbody ha he
    exact ⟨ht', ha.within _ e he, _, _, hplace⟩

/-- **Old meanings do not leak.**  Take a program `p` that is accepted, a function `f` with a
body, a model `m` of checks and a `limit`.  Whatever environment `e` the analysis stores or
notes, at any time, its flow condition and the formulas of its values mention only atoms of
values of the function and atoms that such values have at meetings. -/
theorem about_of_stores {text : String} {p : Program} {f : FunctionId} {m : CheckModel}
    {limit : Nat} {t t' : FormulaTable} {events : Array Event} {e : Environment}
    (hload : Source.load text = .ok p) (hf : f ∈ p.bodies) (ht : t.Reachable)
    (hstores : ({ program := p, function := f, model := m.model, visitLimit := limit } :
      Task).Stores t events t' e) :
    e.About t' (p.Owns f) := by
  have hlocal := Source.local_of_load hload hf
  have hreg := regular_of_hasBody hlocal.toHasBody m limit
  obtain ⟨-, -, _, _, habout⟩ := hstores.exists_place hreg hlocal.toHasBody ht.wellFormed
    fun ht' hopened => keeps_about hlocal ht' hopened
  exact habout

/-- In the loop that negates a truth value, the environment at the annotation mentions the
atoms of the argument, of the parameter and of the negation only. -/
theorem negating_point_about :
    ∃ a events t' e, negatingTask.analyse #[] {} = ((.ok a, events), t') ∧
      a.points.lookup "here" = some e ∧ e.About t' (negatingProgram.Owns ⟨0⟩) := by
  have hload : Source.load negatingText = .ok negatingProgram := by decide +kernel
  have hpoint : ((negatingTask.analyse #[] {}).1.1.toOption.bind
      fun a => a.points.lookup "here").isSome = true := by decide +kernel
  rcases hresult : negatingTask.analyse #[] {} with ⟨⟨r, events⟩, t'⟩
  rw [hresult] at hpoint
  cases r with
  | error => cases hpoint
  | ok a =>
    obtain ⟨e, he⟩ := Option.isSome_iff_exists.1 hpoint
    exact ⟨a, events, t', e, rfl, he,
      about_of_stores (m := {}) hload (by decide) .empty (.point hresult he)⟩

end FlowFacts
