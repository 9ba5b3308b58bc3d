import FlowFacts.Logic.Search
import FlowFacts.Proofs.Logic.Clause
import Mathlib.Data.List.Perm.Subperm

/-!
# The search decides clause sets

The literals of the trail were made true for reasons.  A clause forced a literal because of
those before it, or it was decided on, or the opposite of a decision was found to lead nowhere.
All but the decisions of which one side has been tried follow from the clauses and the literals
before them (`Trail`).  So if nothing satisfies the clauses along the whole trail, nothing does
so along the part up to the latest of these decisions, and the search may go on with its other
side; without such a decision nothing satisfies the clauses at all.

Every round makes smaller what is left to try: the tree of decisions below the trail, and the
other sides of the decisions on it (`Search.remaining`).  So the search ends, whatever happens
to be taken back on the way.

## Main definitions

* `Search.Trail` — how a trail and its decisions came about.
* `Search.Sound` — the invariant: values, trail and decisions fit together.
* `Search.remaining` — a bound on the rounds that are left.
* `Search.Ends` — the search ends with an answer, after any number of rounds.

## Main results

* `Search.Trail.backtrack` — going back loses no solution, and leaves less to try.
* `Search.Sound.step` — one round keeps the invariant, makes what is left smaller, or gives the
  right answer.
* `search_decides` — the search ends and decides whether some assignment satisfies the clauses.
-/

namespace FlowFacts

namespace Search

variable {n : Nat} {a : PartialAssignment} {clauses : List Clause} {trail : List SatLiteral}
  {ds : List Decision} {l : SatLiteral} {s s' : Search} {ρ : Nat → Bool} {answer : Bool}

/-! ### Values and trails -/

/-- The values `a` are those that make the literals of `trail` true. -/
def Records (a : PartialAssignment) (trail : List SatLiteral) : Prop :=
  ∀ v b, a[v]? = some (some b) ↔ { var := v, positive := b } ∈ trail

/-- The literal `l` is on a variable that is not on `trail`. -/
def Fresh (l : SatLiteral) (trail : List SatLiteral) : Prop := ∀ m ∈ trail, m.var ≠ l.var

theorem records_replicate (n : Nat) : Records (Array.replicate n none) [] := by
  intro v b
  simp [Array.getElem?_replicate]

theorem Records.agrees_iff (h : Records a trail) :
    Agrees a ρ ↔ ∀ l ∈ trail, l.holds ρ = true := by
  constructor
  · intro ha l hl
    rw [SatLiteral.holds, beq_iff_eq]
    exact ha l.var l.positive ((h l.var l.positive).2 hl)
  · intro ha v b hv
    have hb := ha _ ((h v b).1 hv)
    rwa [SatLiteral.holds, beq_iff_eq] at hb

theorem Records.fresh (h : Records a trail) (hl : a[l.var]? = some none) : Fresh l trail := by
  intro m hm hvar
  have hvalue := (h m.var m.positive).2 hm
  rw [hvar, hl] at hvalue
  cases hvalue

theorem Records.assign (h : Records a trail) (hl : a[l.var]? = some none) :
    Records (l.assign a) (l :: trail) := by
  intro v b
  have hlt : l.var < a.size := (Array.getElem?_eq_some_iff.1 hl).1
  rw [List.mem_cons, ← h v b, SatLiteral.assign]
  by_cases hv : l.var = v
  · subst hv
    rw [Array.getElem?_setIfInBounds_self_of_lt hlt, hl]
    cases l
    simp [eq_comm]
  · have hne : ({ var := v, positive := b } : SatLiteral) ≠ l := by
      rintro rfl
      exact hv rfl
    rw [Array.getElem?_setIfInBounds_ne hv]
    simp [hne]

theorem Records.unassign (h : Records a (l :: trail)) (hl : Fresh l trail) :
    Records (l.unassign a) trail := by
  intro v b
  rw [SatLiteral.unassign]
  by_cases hv : l.var = v
  · subst hv
    have hnot : ({ var := l.var, positive := b } : SatLiteral) ∉ trail := fun hm => hl _ hm rfl
    rw [Array.getElem?_setIfInBounds_self]
    split <;> simp [hnot]
  · have hne : ({ var := v, positive := b } : SatLiteral) ≠ l := by
      rintro rfl
      exact hv rfl
    rw [Array.getElem?_setIfInBounds_ne hv, h v b, List.mem_cons]
    simp [hne]

/-! ### How trails come about -/

/-- The assignment `ρ` satisfies the `clauses` and makes the literals of `trail` true. -/
def Along (clauses : List Clause) (trail : List SatLiteral) (ρ : Nat → Bool) : Prop :=
  (∀ c ∈ clauses, c.holds ρ = true) ∧ ∀ l ∈ trail, l.holds ρ = true

/-- The literal `l` follows from the `clauses` and the literals of `trail`. -/
def Follows (clauses : List Clause) (trail : List SatLiteral) (l : SatLiteral) : Prop :=
  ∀ ρ, Along clauses trail ρ → l.holds ρ = true

theorem along_cons : Along clauses (l :: trail) ρ ↔ Along clauses trail ρ ∧ l.holds ρ = true := by
  simp only [Along, List.forall_mem_cons]
  tauto

/-- A literal `l` on one of `n` variables may come next. -/
structure Next (n : Nat) (trail : List SatLiteral) (l : SatLiteral) : Prop where
  /-- The variable is in range. -/
  lt : l.var < n
  /-- It has no value yet. -/
  fresh : Fresh l trail

/-- How a trail and its decisions came about, the latest first, for `clauses` over `n` variables. -/
inductive Trail (n : Nat) (clauses : List Clause) : List SatLiteral → List Decision → Prop
  /-- There was nothing. -/
  | nil : Trail n clauses [] []
  /-- A literal was forced. -/
  | forced {trail : List SatLiteral} {ds : List Decision} {l : SatLiteral} :
      Trail n clauses trail ds → Next n trail l → Follows clauses trail l →
      Trail n clauses (l :: trail) ds
  /-- A literal was decided on. -/
  | decided {trail : List SatLiteral} {ds : List Decision} {l : SatLiteral} :
      Trail n clauses trail ds → Next n trail l →
      Trail n clauses (l :: trail) (⟨trail.length, l, false⟩ :: ds)
  /-- The opposite of a decision led nowhere. -/
  | flipped {trail : List SatLiteral} {ds : List Decision} {l : SatLiteral} :
      Trail n clauses trail ds → Next n trail l → Follows clauses trail l →
      Trail n clauses (l :: trail) (⟨trail.length, l, true⟩ :: ds)

namespace Trail

/-- Each variable is on `trail` once, and in range. -/
theorem vars (h : Trail n clauses trail ds) :
    (trail.map SatLiteral.var).Nodup ∧ ∀ l ∈ trail, l.var < n := by
  have hnext : ∀ {trail : List SatLiteral} {l : SatLiteral}, Next n trail l →
      (trail.map SatLiteral.var).Nodup ∧ (∀ m ∈ trail, m.var < n) →
      ((l :: trail).map SatLiteral.var).Nodup ∧ ∀ m ∈ l :: trail, m.var < n := by
    intro trail l hl htrail
    rw [List.map_cons, List.nodup_cons, List.forall_mem_cons]
    refine ⟨⟨fun hmem => ?_, htrail.1⟩, hl.lt, htrail.2⟩
    obtain ⟨m, hm, hvar⟩ := List.mem_map.1 hmem
    exact hl.fresh m hm hvar
  induction h with
  | nil => exact ⟨List.nodup_nil, fun l hl => absurd hl List.not_mem_nil⟩
  | forced _ hl _ ih | decided _ hl ih | flipped _ hl _ ih => exact hnext hl ih

/-- A `trail` is not longer than there are variables. -/
theorem length_le (h : Trail n clauses trail ds) : trail.length ≤ n := by
  obtain ⟨hnodup, hlt⟩ := h.vars
  have hsub : trail.map SatLiteral.var ⊆ List.range n := by
    intro v hv
    obtain ⟨l, hl, rfl⟩ := List.mem_map.1 hv
    exact List.mem_range.2 (hlt l hl)
  have hle := (List.subperm_of_subset hnodup hsub).length_le
  rwa [List.length_map, List.length_range] at hle

/-- A decision is on `trail`, behind what was there before it. -/
theorem trailLength_lt (h : Trail n clauses trail ds) : ∀ d ∈ ds, d.trailLength < trail.length := by
  have hlater : ∀ {trail : List SatLiteral} {ds : List Decision} {l : SatLiteral},
      (∀ d ∈ ds, d.trailLength < trail.length) →
      ∀ d ∈ ds, d.trailLength < (l :: trail).length := by
    intro trail ds l hds d hd
    exact Nat.lt_succ_of_lt (hds d hd)
  induction h with
  | nil => exact fun d hd => absurd hd List.not_mem_nil
  | forced _ _ _ ih => exact hlater ih
  | decided _ _ ih | flipped _ _ _ ih =>
    exact List.forall_mem_cons.2 ⟨Nat.lt_succ_self _, hlater ih⟩

end Trail

/-! ### The invariant -/

/-- The values of `s` are recorded on its trail, which came about with its decisions. -/
structure Sound (n : Nat) (clauses : List Clause) (s : Search) : Prop where
  /-- The clauses stay. -/
  kept : s.clauses = clauses
  /-- So does the number of variables. -/
  size : s.values.size = n
  /-- The trail has the values. -/
  records : Records s.values s.trail
  /-- How the trail came about. -/
  history : Trail n clauses s.trail s.decisions

theorem sound_start (n : Nat) (clauses : List Clause) : Sound n clauses (start n clauses) where
  kept := rfl
  size := Array.size_replicate
  records := records_replicate n
  history := .nil

/-! ### What is left to try -/

theorem rounds_pos (k : Nat) : 0 < rounds k := by
  cases k with
  | zero => exact Nat.one_pos
  | succ k => exact Nat.succ_pos _

theorem rounds_lt {j k : Nat} (h : j < k) : rounds j < rounds k := by
  induction h with
  | refl | step _ ih =>
    rw [rounds]
    omega

/-- Rounds that are enough for the other sides of decisions on `n` variables. -/
def pending (n : Nat) : List Decision → Nat
  | [] => 0
  | d :: ds => (if d.flipped then 0 else rounds (n - (d.trailLength + 1))) + pending n ds

/-- Rounds that are enough from the state `s` on. -/
def remaining (n : Nat) (s : Search) : Nat :=
  rounds (n - s.trail.length) + pending n s.decisions

theorem pending_lt_remaining (n : Nat) (s : Search) : pending n s.decisions < remaining n s :=
  Nat.lt_add_of_pos_left (rounds_pos _)

/-! ### Going back -/

/-- The search `s` with the latest literal `l` of its trail taken back. -/
def pop (s : Search) (l : SatLiteral) (trail : List SatLiteral) : Search :=
  { s with values := l.unassign s.values, trail }

theorem undoTo_length (hs : s.trail = trail) : s.undoTo trail.length = s := by
  rw [undoTo, hs, Nat.sub_self, undo]

theorem undoTo_cons {k : Nat} (hs : s.trail = l :: trail) (hk : k ≤ trail.length) :
    s.undoTo k = (s.pop l trail).undoTo k := by
  have hsub : (l :: trail).length - k = trail.length - k + 1 := by
    rw [List.length_cons]
    omega
  rw [undoTo, hs, hsub, undo, hs]
  rfl

theorem undoTo_pop (hs : s.trail = l :: trail) : s.undoTo trail.length = s.pop l trail :=
  (undoTo_cons hs (Nat.le_refl _)).trans (undoTo_length rfl)

/-- Whatever is behind all of the decisions `ds` is taken back first. -/
theorem backtrack_cons (hs : s.trail = l :: trail) (hds : ∀ d ∈ ds, d.trailLength < trail.length) :
    backtrack ds s = backtrack ds (s.pop l trail) := by
  cases ds with
  | nil => rfl
  | cons d ds =>
    have hle := Nat.le_of_lt (hds d List.mem_cons_self)
    rw [backtrack, backtrack, undoTo_cons hs hle]

/-- **Going back loses no solution.**  Let nothing satisfy the clauses along `trail`.  If there
is no decision to go back to, nothing satisfies them at all.  Otherwise the search goes on
soundly with the other side of a decision, and less is left than there was for the other sides. -/
theorem Trail.backtrack (h : Trail n clauses trail ds) : ∀ {s : Search}, s.clauses = clauses →
    s.values.size = n → Records s.values trail → s.trail = trail →
      (∀ ρ, ¬ Along clauses trail ρ) →
      (Search.backtrack ds s = none → ∀ ρ, ¬ Along clauses [] ρ) ∧
        ∀ s', Search.backtrack ds s = some s' →
          Sound n clauses s' ∧ remaining n s' ≤ pending n ds := by
  induction h with
  | nil =>
    intro s _ _ _ _ hrefuted
    refine ⟨fun _ => hrefuted, fun s' hs' => ?_⟩
    cases hs'
  | @forced trail ds l htrail hl hfollows ih =>
    intro s hclauses hsize hrecords hs hrefuted
    -- nothing satisfies the clauses without the forced literal either, since it follows
    rw [backtrack_cons hs htrail.trailLength_lt]
    refine ih hclauses ?_ (hrecords.unassign hl.fresh) rfl fun ρ hρ => ?_
    · exact (SatLiteral.size_unassign _ _).trans hsize
    · exact hrefuted ρ (along_cons.2 ⟨hρ, hfollows ρ hρ⟩)
  | @decided trail ds l htrail hl ih =>
    intro s hclauses hsize hrecords hs hrefuted
    have hpopped : Records (s.pop l trail).values trail := hrecords.unassign hl.fresh
    have hsize' : (s.pop l trail).values.size = n := (SatLiteral.size_unassign _ _).trans hsize
    have hnone : (s.pop l trail).values[l.negate.var]? = some none := by
      have hlt : l.var < s.values.size := hsize ▸ hl.lt
      change (s.values.setIfInBounds l.var none)[l.var]? = some none
      rw [Array.getElem?_setIfInBounds_self_of_lt hlt]
    -- the side that was tried has no solution, so the other side follows
    have hfollows : Follows clauses trail l.negate := by
      intro ρ hρ
      rw [SatLiteral.holds_negate, Bool.not_eq_true']
      exact Bool.eq_false_iff.2 fun htrue => hrefuted ρ (along_cons.2 ⟨hρ, htrue⟩)
    simp only [Search.backtrack, undoTo_pop hs, Bool.false_eq_true, if_false]
    refine ⟨fun hnone => absurd hnone (Option.some_ne_none _), fun s' hs' => ?_⟩
    obtain rfl := Option.some.inj hs'
    refine ⟨⟨hclauses, ?_, hpopped.assign hnone, ?_⟩, ?_⟩
    · exact (SatLiteral.size_assign _ _).trans hsize'
    · exact .flipped htrail ⟨hl.lt, hl.fresh⟩ hfollows
    · simp [remaining, pending, assign, pop]
  | @flipped trail ds l htrail hl hfollows ih =>
    intro s hclauses hsize hrecords hs hrefuted
    -- both sides were tried, so the decision goes like a forced literal
    simp only [Search.backtrack, undoTo_pop hs, if_true, pending, Nat.zero_add]
    refine ih hclauses ?_ (hrecords.unassign hl.fresh) rfl fun ρ hρ => ?_
    · exact (SatLiteral.size_unassign _ _).trans hsize
    · exact hrefuted ρ (along_cons.2 ⟨hρ, hfollows ρ hρ⟩)

/-! ### Going through the clauses -/

/-- A literal `l` that the clause `c` forces may be made true. -/
theorem Sound.assign_forced (h : Sound n clauses s) (hb : Clause.Below n clauses) {c : Clause}
    (hc : c ∈ clauses) (hl : c.demand s.values = .forced l) : Sound n clauses (s.assign l) := by
  have hdescribes := Clause.demand_describes s.values c
  rw [hl] at hdescribes
  have hlt : l.var < n := hb c hc l hdescribes.1
  have hnone := SatLiteral.getElem?_of_value?_eq_none hdescribes.2.1 (h.size ▸ hlt)
  refine ⟨h.kept, (SatLiteral.size_assign _ _).trans h.size, h.records.assign hnone, ?_⟩
  refine .forced h.history ⟨hlt, h.records.fresh hnone⟩ fun ρ hρ => ?_
  exact Clause.holds_of_forced hl (h.records.agrees_iff.2 hρ.2) (hρ.1 c hc)

/-- What going through the clauses `cs` leads to. -/
structure Swept (n : Nat) (clauses cs : List Clause) (s : Search) (changed : Bool)
    (r : Option Bool × Search) : Prop where
  /-- The search stays sound. -/
  sound : Sound n clauses r.2
  /-- There are no new decisions. -/
  decisions : r.2.decisions = s.decisions
  /-- A conflict shows that nothing satisfies the clauses along the trail. -/
  conflict : r.1 = none → ∀ ρ, ¬ Along clauses r.2.trail ρ
  /-- If something was changed, the trail is longer. -/
  progress : r.1 = some true → changed = true ∨ s.trail.length < r.2.trail.length
  /-- Otherwise no clause is in conflict or forces anything. -/
  idle : r.1 = some false → changed = false ∧ r.2 = s ∧
    ∀ c ∈ cs, c.demand s.values = .satisfied ∨ c.demand s.values = .unresolved

theorem sweep_length_le {cs : List Clause} : ∀ {s : Search} {changed : Bool},
    s.trail.length ≤ (sweep cs s changed).2.trail.length := by
  induction cs with
  | nil => exact fun {s changed} => Nat.le_refl _
  | cons c cs ih =>
    intro s changed
    rw [sweep]
    split
    · exact Nat.le_refl _
    · next l _ => exact Nat.le_trans (Nat.le_succ _) (ih (s := s.assign l))
    · exact ih
    · exact ih

/-- Going through the clauses `cs` makes true what they force. -/
theorem swept_sweep (hb : Clause.Below n clauses) {cs : List Clause} : cs ⊆ clauses →
    ∀ {s : Search} {changed : Bool}, Sound n clauses s →
      Swept n clauses cs s changed (sweep cs s changed) := by
  induction cs with
  | nil =>
    intro _ s changed h
    refine ⟨h, rfl, fun hnone => absurd hnone (Option.some_ne_none _),
      fun htrue => Or.inl (Option.some.inj htrue),
      fun hfalse => ⟨Option.some.inj hfalse, rfl, fun c hc => absurd hc List.not_mem_nil⟩⟩
  | cons c cs ih =>
    intro hsub s changed h
    obtain ⟨hc, hcs⟩ := List.cons_subset.1 hsub
    -- a clause that asks for nothing is passed over
    have hpass : c.demand s.values = .satisfied ∨ c.demand s.values = .unresolved →
        Swept n clauses (c :: cs) s changed (sweep cs s changed) := by
      intro hdemand
      have hrest : Swept n clauses cs s changed (sweep cs s changed) := ih hcs h
      refine ⟨hrest.sound, hrest.decisions, hrest.conflict, hrest.progress, fun hfalse => ?_⟩
      obtain ⟨hchanged, hsame, hdemands⟩ := hrest.idle hfalse
      exact ⟨hchanged, hsame, List.forall_mem_cons.2 ⟨hdemand, hdemands⟩⟩
    rw [sweep]
    cases hdemand : c.demand s.values with
    | satisfied => exact hpass (Or.inl hdemand)
    | unresolved => exact hpass (Or.inr hdemand)
    | conflict =>
      refine ⟨h, rfl, fun _ ρ hρ => ?_, fun htrue => absurd htrue.symm (Option.some_ne_none _),
        fun hfalse => absurd hfalse.symm (Option.some_ne_none _)⟩
      exact Clause.not_holds_of_conflict hdemand (h.records.agrees_iff.2 hρ.2) (hρ.1 c hc)
    | forced l =>
      have hrest : Swept n clauses cs (s.assign l) true (sweep cs (s.assign l) true) :=
        ih hcs (h.assign_forced hb hc hdemand)
      refine ⟨hrest.sound, hrest.decisions, hrest.conflict, fun _ => Or.inr ?_, fun hfalse => ?_⟩
      · exact Nat.lt_of_lt_of_le (Nat.lt_succ_self _) (sweep_length_le (s := s.assign l))
      · cases (hrest.idle hfalse).1

/-! ### One round -/

/-- A variable `v` without a value may be decided on. -/
theorem Sound.decideOn (h : Sound n clauses s) {v : Nat} (hv : s.values[v]? = some none) :
    Sound n clauses (s.decideOn v) ∧ remaining n (s.decideOn v) < remaining n s := by
  have hlt : v < n := h.size ▸ (Array.getElem?_eq_some_iff.1 hv).1
  have hsound : Sound n clauses (s.decideOn v) :=
    ⟨h.kept, (SatLiteral.size_assign _ _).trans h.size, h.records.assign hv,
      .decided h.history ⟨hlt, h.records.fresh hv⟩⟩
  refine ⟨hsound, ?_⟩
  have hlength : s.trail.length + 1 ≤ n := hsound.history.length_le
  -- one round for the decision, and both of its sides
  have hrounds : rounds (n - s.trail.length) = 2 * rounds (n - (s.trail.length + 1)) + 1 := by
    obtain ⟨k, rfl⟩ := Nat.exists_eq_add_of_le hlength
    rw [show s.trail.length + 1 + k - s.trail.length = k + 1 by omega,
      Nat.add_sub_cancel_left, rounds]
  have hremaining : remaining n (s.decideOn v) = rounds (n - (s.trail.length + 1)) +
      (rounds (n - (s.trail.length + 1)) + pending n s.decisions) := rfl
  rw [hremaining, remaining, hrounds]
  omega

/-- Where every variable has a value and no clause asks for anything, the values of `s` satisfy
all clauses. -/
theorem Sound.exists_along (h : Sound n clauses s) (hb : Clause.Below n clauses)
    (hfull : none ∉ s.values)
    (hdemands : ∀ c ∈ clauses, c.demand s.values = .satisfied ∨ c.demand s.values = .unresolved) :
    ∃ ρ, Along clauses [] ρ := by
  obtain ⟨ρ, hρ⟩ := exists_agrees s.values
  refine ⟨ρ, fun c hc => ?_, fun l hl => absurd hl List.not_mem_nil⟩
  have hdescribes := Clause.demand_describes s.values c
  rcases hdemands c hc with hdemand | hdemand
  · rw [hdemand] at hdescribes
    obtain ⟨l, hl, htrue⟩ := hdescribes
    exact Clause.holds_eq_true_iff.2 ⟨l, hl, SatLiteral.holds_of_value? hρ htrue⟩
  · rw [hdemand] at hdescribes
    obtain ⟨l, hl, hnone⟩ := hdescribes
    have hlt : l.var < s.values.size := h.size ▸ hb c hc l hl
    have hopen := SatLiteral.getElem?_of_value?_eq_none hnone hlt
    exact absurd (Array.mem_of_getElem? hopen) hfull

theorem getElem?_of_idxOf? {v : Nat} (h : a.idxOf? none = some v) : a[v]? = some none := by
  rw [Array.idxOf?_eq_map_finIdxOf?_val, Option.map_eq_some_iff] at h
  obtain ⟨i, hi, rfl⟩ := h
  rw [Array.finIdxOf?_eq_some_iff] at hi
  rw [Array.getElem?_eq_getElem i.isLt]
  exact congrArg some hi.1

/-- **One round** of `s` gives the right answer, or keeps the search sound and leaves less to
try. -/
theorem Sound.step (h : Sound n clauses s) (hb : Clause.Below n clauses) :
    (∀ s', s.step = .inl s' → Sound n clauses s' ∧ remaining n s' < remaining n s) ∧
      ∀ answer, s.step = .inr answer → (answer = true ↔ ∃ ρ, Along clauses [] ρ) := by
  have hsub : s.clauses ⊆ clauses := h.kept ▸ List.Subset.refl _
  have hswept : Swept n clauses s.clauses s false (sweep s.clauses s false) :=
    swept_sweep hb hsub h
  rw [Search.step]
  generalize sweep s.clauses s false = r at hswept
  obtain ⟨result, q⟩ := r
  have hsound : Sound n clauses q := hswept.sound
  have hdecisions : q.decisions = s.decisions := hswept.decisions
  match result with
  | none =>
    -- a conflict: the search goes back, or there is no solution
    obtain ⟨hnone, hsome⟩ := hsound.history.backtrack hsound.kept hsound.size hsound.records rfl
      (hswept.conflict rfl)
    cases hback : backtrack q.decisions q with
    | none =>
      refine ⟨fun s' hs' => (by simp [hback] at hs'), fun answer hanswer => ?_⟩
      obtain rfl : false = answer := by simpa [hback] using hanswer
      simpa using hnone hback
    | some s' =>
      refine ⟨fun s'' hs'' => ?_, fun answer hanswer => (by simp [hback] at hanswer)⟩
      obtain rfl : s' = s'' := by simpa [hback] using hs''
      obtain ⟨hsound', hle⟩ := hsome s' hback
      rw [hdecisions] at hle
      exact ⟨hsound', Nat.lt_of_le_of_lt hle (pending_lt_remaining n s)⟩
  | some true =>
    refine ⟨fun s' hs' => ?_, fun answer hanswer => (by simp at hanswer)⟩
    -- something was forced: the trail has become longer
    obtain rfl : q = s' := by simpa using hs'
    refine ⟨hsound, ?_⟩
    have hlonger : s.trail.length < q.trail.length :=
      (hswept.progress rfl).resolve_left Bool.false_ne_true
    have hle := hsound.history.length_le
    have hrounds := rounds_lt (show n - q.trail.length < n - s.trail.length by omega)
    rw [remaining, remaining, hdecisions]
    omega
  | some false =>
    -- nothing was forced: a decision is made, or all variables have values
    obtain ⟨-, hsame, hdemands⟩ := hswept.idle rfl
    obtain rfl : q = s := hsame
    cases hfirst : q.values.idxOf? none with
    | none =>
      refine ⟨fun s' hs' => (by simp [hfirst] at hs'), fun answer hanswer => ?_⟩
      obtain rfl : true = answer := by simpa [hfirst] using hanswer
      have hfull : none ∉ q.values := Array.idxOf?_eq_none_iff.1 hfirst
      simpa using h.exists_along hb hfull fun c hc => hdemands c (h.kept ▸ hc)
    | some v =>
      refine ⟨fun s' hs' => ?_, fun answer hanswer => (by simp [hfirst] at hanswer)⟩
      obtain rfl : q.decideOn v = s' := by simpa [hfirst] using hs'
      exact h.decideOn (getElem?_of_idxOf? hfirst)

/-! ### The loop -/

/-- The search ends with an answer, after any number of rounds of `step`. -/
inductive Ends : Search → Bool → Prop
  /-- A round gives the answer. -/
  | answer {s : Search} {answer : Bool} : s.step = .inr answer → Ends s answer
  /-- There is another round. -/
  | next {s s' : Search} {answer : Bool} : s.step = .inl s' → Ends s' answer → Ends s answer

/-- There is at most one `answer`. -/
theorem Ends.unique {other : Bool} (h : s.Ends answer) (h' : s.Ends other) : answer = other := by
  induction h with
  | answer hstep =>
    cases h' with
    | answer hstep' => exact Sum.inr.inj (hstep.symm.trans hstep')
    | next hstep' _ => cases hstep.symm.trans hstep'
  | next hstep _ ih =>
    cases h' with
    | answer hstep' => cases hstep.symm.trans hstep'
    | next hstep' hends =>
      rw [← Sum.inl.inj (hstep.symm.trans hstep')] at hends
      exact ih hends

/-- As many rounds `k` as are left suffice. -/
theorem Sound.exists_ends (hb : Clause.Below n clauses) : ∀ {k : Nat} {s : Search},
    Sound n clauses s → remaining n s ≤ k → ∃ answer, solveWithin k s = some answer ∧
      s.Ends answer ∧ (answer = true ↔ ∃ ρ, Along clauses [] ρ) := by
  intro k
  induction k with
  | zero =>
    intro s _ hk
    have hless := pending_lt_remaining n s
    omega
  | succ k ih =>
    intro s h hk
    obtain ⟨hgoes, hanswers⟩ := h.step hb
    cases hstep : s.step with
    | inl s' =>
      obtain ⟨hsound, hless⟩ := hgoes s' hstep
      obtain ⟨answer, hsolve, hends, hiff⟩ := ih hsound (by omega)
      refine ⟨answer, ?_, .next hstep hends, hiff⟩
      rw [solveWithin, hstep]
      exact hsolve
    | inr answer =>
      refine ⟨answer, ?_, .answer hstep, hanswers answer hstep⟩
      rw [solveWithin, hstep]

end Search

open Search

variable {n : Nat} {clauses : List Clause}

/-- The number of rounds that is allowed is enough for `clauses`, so the search ends with the
answer given. -/
theorem Clause.ends_satisfiable (hb : Below n clauses) :
    (start n clauses).Ends (satisfiable n clauses) ∧
      (satisfiable n clauses = true ↔ ∃ ρ, ∀ c ∈ clauses, holds ρ c = true) := by
  have hbound : remaining n (start n clauses) ≤ rounds n := Nat.le_refl _
  obtain ⟨answer, hsolve, hends, hiff⟩ := (sound_start n clauses).exists_ends hb hbound
  have hanswer : satisfiable n clauses = answer := by
    rw [satisfiable, hsolve, Option.getD_some]
  rw [hanswer]
  refine ⟨hends, hiff.trans (exists_congr fun ρ => ?_)⟩
  exact and_iff_left fun l hl => absurd hl List.not_mem_nil

/-- **The search decides every set of clauses.**  Take any number `n` of variables and any
`clauses` over them: none at all, empty ones, clauses with a literal twice or with opposite
literals.  The loop ends, with one answer, and this is whether some values of the variables
satisfy all clauses.  The bound under which the loop is run does not show. -/
theorem search_decides (hb : Clause.Below n clauses) :
    ∃ answer, (start n clauses).Ends answer ∧
      (∀ other, (start n clauses).Ends other → other = answer) ∧
      Clause.satisfiable n clauses = answer ∧
      (answer = true ↔ ∃ ρ : Nat → Bool, ∀ c ∈ clauses, c.holds ρ = true) := by
  obtain ⟨hends, hiff⟩ := Clause.ends_satisfiable hb
  exact ⟨_, hends, fun other hother => hother.unique hends, rfl, hiff⟩

/-- Clauses none of which forces anything at first, and that leave no values for the first two
variables. -/
def crossedClauses : List Clause :=
  [[⟨0, true⟩, ⟨1, true⟩], [⟨2, true⟩, ⟨2, false⟩], [⟨0, true⟩, ⟨1, false⟩, ⟨1, false⟩],
    [⟨0, false⟩, ⟨1, true⟩], [⟨0, false⟩, ⟨1, false⟩]]

/-- Both sides of the first decision lead to a conflict.  Without the last clause there are values,
and with an empty one there are none. -/
theorem crossedClauses_decided :
    Clause.Below 3 crossedClauses ∧
      (start 3 crossedClauses).Ends false ∧
      (¬ ∃ ρ : Nat → Bool, ∀ c ∈ crossedClauses, c.holds ρ = true) ∧
      (start 3 crossedClauses.dropLast).Ends true ∧
      (∃ ρ : Nat → Bool, ∀ c ∈ crossedClauses.dropLast, c.holds ρ = true) ∧
      (start 0 [[]]).Ends false := by
  have hbelow : Clause.Below 3 crossedClauses := by decide
  obtain ⟨_, hends, -, rfl, hiff⟩ := search_decides hbelow
  obtain ⟨_, hends', -, rfl, hiff'⟩ := search_decides
    (show Clause.Below 3 crossedClauses.dropLast by decide)
  obtain ⟨_, hends'', -, rfl, -⟩ := search_decides (show Clause.Below 0 [[]] by decide)
  have hfalse : Clause.satisfiable 3 crossedClauses = false := by decide +kernel
  have htrue : Clause.satisfiable 3 crossedClauses.dropLast = true := by decide +kernel
  have hempty : Clause.satisfiable 0 [[]] = false := by decide +kernel
  rw [hfalse] at hends hiff
  rw [htrue] at hends' hiff'
  rw [hempty] at hends''
  exact ⟨hbelow, hends, fun h => Bool.false_ne_true (hiff.2 h), hends', hiff'.1 rfl, hends''⟩

end FlowFacts
