import FlowFacts.Source.Rule
import Mathlib.Data.List.Basic

/-!
# What rules read

The theory of reading rules, without their messages.  A rule that reads some characters reads
them at every position, so the position of a cursor is left out: `Reads r cs a rest` says that
the rule `r` reads the value `a` from the characters `cs` and leaves `rest`, and `Fails r cs`
that it reads nothing there.  One lemma for each combinator says when a composed rule reads or
fails.

A repetition goes on until its rule fails.  Its bound, the number of characters left, is never
met if every round takes some of them (`ReadsAll`).

## Main definitions

* `Rule.Reads`, `Rule.Fails` — what a rule does.
* `Rule.ReadsAll` — what a rule does again and again.

## Main results

* `Reads.bind`, `reads_choice_head`, `reads_choice_tail`,
  `ReadsAll.many`, `ReadsAll.separated` — the combinators.
-/

namespace FlowFacts.Source.Rule

variable {α β : Type} {r : Rule α} {cs mid rest : List Char} {a : α} {k : α → Rule β}
  {ok : Char → Bool} {description : String} {rs : List (Rule α)} {as : List α}
  {separator : Rule Unit}

/-- The rule `r` reads `a` from `cs` and leaves `rest`. -/
def Reads (r : Rule α) (cs : List Char) (a : α) (rest : List Char) : Prop :=
  ∀ offset, ∃ offset', (r ⟨cs, offset⟩).result = some (a, ⟨rest, offset'⟩)

/-- The rule `r` does not read `cs`. -/
def Fails (r : Rule α) (cs : List Char) : Prop := ∀ offset, (r ⟨cs, offset⟩).result = none

/-! ### Sequences -/

theorem result_bind (r : Rule α) (k : α → Rule β) (c : Cursor) :
    ((r >>= k) c).result = (r c).result.bind fun x => (k x.1 x.2).result := by
  change (andThen r k c).result = _
  unfold andThen
  split
  · next h => rw [h]; rfl
  · next h => rw [h]; rfl

theorem reads_pure (a : α) (cs : List Char) : (pure a : Rule α).Reads cs a cs :=
  fun offset => ⟨offset, rfl⟩

theorem Reads.bind {b : β} (h : r.Reads cs a mid) (hk : (k a).Reads mid b rest) :
    (r >>= k).Reads cs b rest := by
  intro offset
  obtain ⟨offset₁, h₁⟩ := h offset
  obtain ⟨offset₂, h₂⟩ := hk offset₁
  refine ⟨offset₂, ?_⟩
  rw [result_bind, h₁]
  exact h₂

theorem Fails.bind (h : r.Fails cs) : (r >>= k).Fails cs := by
  intro offset
  rw [result_bind, h offset]
  rfl

theorem Reads.bind_fails (h : r.Reads cs a mid) (hk : (k a).Fails mid) : (r >>= k).Fails cs := by
  intro offset
  obtain ⟨offset₁, h₁⟩ := h offset
  rw [result_bind, h₁]
  exact hk offset₁

theorem Reads.map {b : β} {g : α → β} (h : r.Reads cs a rest) (hb : g a = b) :
    (do return g (← r) : Rule β).Reads cs b rest :=
  h.bind (hb ▸ reads_pure _ _)

/-! ### Terminals -/

theorem literal_append (s : String) (cs : List Char) (offset : Nat) :
    literal s ⟨s.toList ++ cs, offset⟩ = { result := some ((), ⟨cs, offset + s.length⟩) } := by
  have hprefix : s.toList.isPrefixOf (s.toList ++ cs) = true :=
    List.isPrefixOf_iff_prefix.2 (List.prefix_append _ _)
  have hdrop : (s.toList ++ cs).drop s.length = cs := by
    rw [← String.length_toList, List.drop_left]
  simp [literal, hprefix, succeed, Cursor.advance, hdrop]

theorem reads_literal (s : String) (cs : List Char) :
    (literal s).Reads (s.toList ++ cs) () cs :=
  fun offset => ⟨offset + s.length, by rw [literal_append]⟩

theorem fails_literal {s : String} (h : ¬ s.toList <+: cs) : (literal s).Fails cs := by
  intro offset
  have hprefix : s.toList.isPrefixOf cs = false := by
    rw [← Bool.not_eq_true, List.isPrefixOf_iff_prefix]
    exact h
  simp [literal, hprefix, fail]

theorem reads_oneOf {c : Char} (h : ok c = true) : (oneOf description ok).Reads (c :: cs) c cs := by
  intro offset
  refine ⟨offset + 1, ?_⟩
  simp [oneOf, h, succeed, Cursor.advance]

theorem fails_oneOf (h : ∀ c ∈ cs.head?, ok c = false) : (oneOf description ok).Fails cs := by
  intro offset
  cases cs with
  | nil => rfl
  | cons c cs => simp [oneOf, h c rfl, fail]

theorem fails_oneOf_cons {c : Char} (h : ok c = false) : (oneOf description ok).Fails (c :: cs) :=
  fails_oneOf (by simpa using h)

theorem reads_takeWhile {taken : List Char} (h : ∀ c ∈ taken, ok c = true)
    (hrest : ∀ c ∈ cs.head?, ok c = false) : (Rule.takeWhile ok).Reads (taken ++ cs) taken cs := by
  intro offset
  refine ⟨offset + taken.length, ?_⟩
  have hnil : cs.takeWhile ok = [] := by
    cases cs with
    | nil => rfl
    | cons c cs => rw [List.takeWhile_cons, hrest c rfl]; rfl
  have htaken : (taken ++ cs).takeWhile ok = taken := by
    rw [List.takeWhile_append_of_pos h, hnil, List.append_nil]
  simp [Rule.takeWhile, htaken, succeed, Cursor.advance]

theorem reads_endOfText : endOfText.Reads [] () [] := fun offset => ⟨offset, rfl⟩

/-! ### Choices -/

theorem result_choice_cons (r : Rule α) (rs : List (Rule α)) (c : Cursor) :
    (choice (r :: rs) c).result = (r c).result.or (choice rs c).result := by
  rw [choice]
  beta_reduce
  split
  · next h => rw [h]; rfl
  · next h => rw [h]; rfl

theorem reads_choice_head (h : r.Reads cs a rest) : (choice (r :: rs)).Reads cs a rest := by
  intro offset
  obtain ⟨offset₁, h₁⟩ := h offset
  exact ⟨offset₁, by rw [result_choice_cons, h₁, Option.some_or]⟩

theorem reads_choice_tail (h : r.Fails cs) (hrs : (choice rs).Reads cs a rest) :
    (choice (r :: rs)).Reads cs a rest := by
  intro offset
  obtain ⟨offset₁, h₁⟩ := hrs offset
  exact ⟨offset₁, by rw [result_choice_cons, h offset, Option.none_or, h₁]⟩

theorem fails_choice (h : ∀ r ∈ rs, r.Fails cs) : (choice rs).Fails cs := by
  intro offset
  induction rs with
  | nil => rfl
  | cons r rs ih =>
    rw [List.forall_mem_cons] at h
    rw [result_choice_cons, h.1 offset, Option.none_or, ih h.2]

/-- Whichever rule of `rs` is chosen, what follows it, `k`, fails. -/
theorem fails_choice_bind (h : ∀ r ∈ rs, (r >>= k).Fails cs) : (choice rs >>= k).Fails cs := by
  intro offset
  induction rs with
  | nil => rfl
  | cons r rs ih =>
    rw [List.forall_mem_cons] at h
    have hr := h.1 offset
    rw [result_bind] at hr ⊢
    rw [result_choice_cons]
    cases hresult : (r ⟨cs, offset⟩).result with
    | none =>
      rw [Option.none_or, ← result_bind]
      exact ih h.2
    | some x =>
      rw [hresult] at hr
      exact hr

theorem Reads.optional (h : r.Reads cs a rest) : (Rule.optional r).Reads cs (some a) rest :=
  reads_choice_head (h.map rfl)

theorem Fails.optional (h : r.Fails cs) : (Rule.optional r).Reads cs none cs :=
  reads_choice_tail h.bind (reads_choice_head fun offset => ⟨offset, rfl⟩)

theorem Reads.quiet (h : r.Reads cs a rest) : (Rule.quiet r).Reads cs a rest := h

theorem Fails.quiet (h : r.Fails cs) : (Rule.quiet r).Fails cs := h

theorem Fails.notAhead (h : r.Fails cs) : (Rule.notAhead r).Reads cs () cs := by
  intro offset
  exact ⟨offset, by rw [Rule.notAhead, h offset]⟩

theorem Reads.notAhead (h : r.Reads cs a rest) : (Rule.notAhead r).Fails cs := by
  intro offset
  obtain ⟨offset₁, h₁⟩ := h offset
  rw [Rule.notAhead, h₁]

/-- Looking ahead takes nothing, so what follows, `k`, fails where it failed. -/
theorem Fails.after_notAhead {r : Rule α} {k : Unit → Rule β} (hk : (k ()).Fails cs) :
    (Rule.notAhead r >>= k).Fails cs := by
  intro offset
  rw [result_bind, Rule.notAhead]
  cases (r ⟨cs, offset⟩).result with
  | none => exact hk offset
  | some x => rfl

/-! ### Repetitions -/

/-- The rule `r` reads some values one after another, each of at least one character, and then
fails. -/
inductive ReadsAll (r : Rule α) : List Char → List α → List Char → Prop
  /-- It fails. -/
  | nil {cs : List Char} : r.Fails cs → ReadsAll r cs [] cs
  /-- It reads a value and goes on. -/
  | cons {cs mid rest : List Char} {a : α} {as : List α} : r.Reads cs a mid →
      mid.length < cs.length → ReadsAll r mid as rest → ReadsAll r cs (a :: as) rest

/-- The bound `n` on the number of rounds is not met. -/
theorem ReadsAll.upTo (h : ReadsAll r cs as rest) : ∀ {n : Nat} (offset : Nat),
    cs.length < n →
      ∃ offset' failure, Rule.upTo r n ⟨cs, offset⟩ = (as, ⟨rest, offset'⟩, failure) := by
  induction h with
  | @nil cs hfails =>
    intro n offset hn
    obtain ⟨n, rfl⟩ := Nat.exists_eq_succ_of_ne_zero (Nat.ne_of_gt (Nat.zero_lt_of_lt hn))
    have hnone := hfails offset
    rw [Rule.upTo]
    split
    · exact ⟨offset, _, rfl⟩
    · next h => rw [h] at hnone; cases hnone
  | @cons cs mid rest a as hreads hlt _ ih =>
    intro n offset hn
    obtain ⟨n, rfl⟩ := Nat.exists_eq_succ_of_ne_zero (Nat.ne_of_gt (Nat.zero_lt_of_lt hn))
    obtain ⟨offset₁, h₁⟩ := hreads offset
    rw [Rule.upTo]
    split
    · next h => rw [h] at h₁; cases h₁
    · next h =>
      rw [h] at h₁
      cases h₁
      obtain ⟨offset₂, failure, h₂⟩ := ih (n := n) offset₁ (by omega)
      rw [h₂]
      exact ⟨offset₂, _, rfl⟩

theorem ReadsAll.many (h : ReadsAll r cs as rest) : (Rule.many r).Reads cs as rest := by
  intro offset
  obtain ⟨offset', failure, h'⟩ := h.upTo (n := cs.length + 1) offset (Nat.lt_succ_self _)
  refine ⟨offset', ?_⟩
  rw [Rule.many, h']

/-- A list with separators: `r` reads the first value, and the others follow a `separator`. -/
theorem ReadsAll.separated1 (h : r.Reads cs a mid)
    (hrest : ReadsAll (do separator; r) mid as rest) :
    (Rule.separated1 r separator).Reads cs (a :: as) rest :=
  h.bind (hrest.many.bind (reads_pure _ _))

theorem ReadsAll.separated (h : r.Reads cs a mid) (hrest : ReadsAll (do separator; r) mid as rest) :
    (Rule.separated r separator).Reads cs (a :: as) rest :=
  reads_choice_head (ReadsAll.separated1 h hrest)

theorem Fails.separated (h : r.Fails cs) : (Rule.separated r separator).Reads cs [] cs :=
  reads_choice_tail h.bind (reads_choice_head fun offset => ⟨offset, rfl⟩)

end FlowFacts.Source.Rule
