import FlowFacts.Proofs.Source.Written

/-!
# The words of a text that was read

What is known of the trees that the grammar gives, whatever the text: paths are not empty, and
paths, arguments, labels and points are named by names.  Only the first block of a function can
be labelled `nop`, as elsewhere this word is read as an instruction.  That takes an argument:
the instructions of a block end where none can be read, since each of them takes at least one
character of the text.

## Main definitions

* `Rule.Gives` — how much a rule takes at least, and what its values are like.
* `FunctionDecl.Worded` — the words of a tree.

## Main results

* `worded_of_read` — the trees of a text are worded.
-/

namespace FlowFacts.Source

namespace Rule

variable {α β : Type} {r : Rule α} {k l : Nat} {P Q : α → Prop} {next : α → Rule β} {R : β → Prop}

/-- The rule `r` takes at least `k` characters, and its values have the property `P`. -/
def Gives (r : Rule α) (k : Nat) (P : α → Prop) : Prop :=
  ∀ c a c', (r c).result = some (a, c') → c'.rest.length + k ≤ c.rest.length ∧ P a

theorem Gives.mono (h : r.Gives k P) (hk : l ≤ k) (hP : ∀ a, P a → Q a) : r.Gives l Q := by
  intro c a c' hc
  obtain ⟨hlen, ha⟩ := h c a c' hc
  exact ⟨by omega, hP a ha⟩

theorem gives_pure {a : α} (h : P a) : (pure a : Rule α).Gives 0 P := by
  intro c a' c' hc
  obtain ⟨rfl, rfl⟩ := Prod.mk.inj (Option.some.inj hc)
  exact ⟨Nat.le_refl _, h⟩

theorem Gives.bind (h : r.Gives k P) (hnext : ∀ a, P a → (next a).Gives l R) :
    (r >>= next).Gives (k + l) R := by
  intro c b c' hc
  rw [result_bind, Option.bind_eq_some_iff] at hc
  obtain ⟨⟨a, c₁⟩, h₁, h₂⟩ := hc
  obtain ⟨hlen, ha⟩ := h c a c₁ h₁
  obtain ⟨hlen', hb⟩ := hnext a ha c₁ b c' h₂
  exact ⟨by omega, hb⟩

/-- What follows `r` takes no less than nothing. -/
theorem Gives.then (h : r.Gives k P) (hnext : ∀ a, P a → (next a).Gives 0 R) :
    (r >>= next).Gives k R := h.bind hnext

/-- The rule `r` leaves no more than it finds, whatever it gives. -/
def Moves (r : Rule α) : Prop := r.Gives 0 fun _ => True

theorem Gives.moves (h : r.Gives k P) : r.Moves := h.mono (Nat.zero_le _) fun _ _ => trivial

theorem Moves.then (h : r.Moves) (hnext : ∀ a, (next a).Gives 0 R) : (r >>= next).Gives 0 R :=
  Gives.then h fun a _ => hnext a

theorem moves_pure (a : α) : (pure a : Rule α).Moves := gives_pure trivial

theorem Gives.quiet (h : r.Gives k P) : (Rule.quiet r).Gives k P := h

theorem gives_choice {rs : List (Rule α)} (h : ∀ r ∈ rs, r.Gives k P) : (choice rs).Gives k P := by
  induction rs with
  | nil =>
    intro c a c' hc
    cases hc
  | cons r rs ih =>
    rw [List.forall_mem_cons] at h
    intro c a c' hc
    rw [result_choice_cons, Option.or_eq_some_iff] at hc
    rcases hc with hc | ⟨-, hc⟩
    · exact h.1 c a c' hc
    · exact ih h.2 c a c' hc

theorem Gives.optional (h : r.Gives 0 P) : (Rule.optional r).Gives 0 fun x => ∀ a ∈ x, P a := by
  refine gives_choice ?_
  rw [List.forall_mem_cons, List.forall_mem_singleton]
  refine ⟨h.then fun a ha => gives_pure ?_, gives_pure (by simp)⟩
  simpa using ha

theorem gives_literal (s : String) : (literal s).Gives s.length fun _ => True := by
  intro c a c' hc
  unfold literal at hc
  split at hc
  · next hprefix =>
    obtain ⟨t, ht⟩ := List.isPrefixOf_iff_prefix.1 hprefix
    obtain ⟨-, rfl⟩ := Prod.mk.inj (Option.some.inj hc)
    have hlen := congrArg List.length ht
    simp only [List.length_append, String.length_toList] at hlen
    simp only [Cursor.advance, List.length_drop]
    exact ⟨by omega, trivial⟩
  · cases hc

theorem gives_oneOf (description : String) (ok : Char → Bool) :
    (oneOf description ok).Gives 1 fun _ => True := by
  intro c a c' hc
  unfold oneOf at hc
  split at hc
  · cases hc
  · next ch rest hrest =>
    split at hc
    · obtain ⟨-, rfl⟩ := Prod.mk.inj (Option.some.inj hc)
      simp [Cursor.advance, hrest]
    · cases hc

/-- Moving on by `n` characters leaves no more than there was. -/
theorem length_advance (c : Cursor) (n : Nat) : (c.advance n).rest.length ≤ c.rest.length := by
  simp [Cursor.advance]

theorem gives_notAhead (r : Rule α) : (Rule.notAhead r).Gives 0 fun _ => True := by
  intro c a c' hc
  unfold Rule.notAhead at hc
  split at hc
  · obtain ⟨-, rfl⟩ := Prod.mk.inj (Option.some.inj hc)
    exact ⟨Nat.le_refl _, trivial⟩
  · cases hc

/-! ### Repetitions -/

theorem upTo_succ (r : Rule α) (n : Nat) (c : Cursor) :
    ((upTo r (n + 1) c).1, (upTo r (n + 1) c).2.1) = match (r c).result with
      | none => ([], c)
      | some (a, next) => (a :: (upTo r n next).1, (upTo r n next).2.1) := by
  rw [upTo]
  split
  · next h => rw [h]
  · next h => rw [h]

/-- A repetition gives values of `r`, and ends where `r` fails: if each round takes something,
there are more rounds than characters. -/
theorem Gives.upTo (h : r.Gives 1 P) : ∀ {n : Nat} {c : Cursor}, c.rest.length < n →
    (∀ a ∈ (Rule.upTo r n c).1, P a) ∧ (r (Rule.upTo r n c).2.1).result = none ∧
      (Rule.upTo r n c).2.1.rest.length ≤ c.rest.length := by
  intro n
  induction n with
  | zero =>
    intro c hn
    omega
  | succ n ih =>
    intro c hn
    have hstep := upTo_succ r n c
    cases hc : (r c).result with
    | none =>
      rw [hc] at hstep
      obtain ⟨h₁, h₂⟩ := Prod.mk.inj hstep
      rw [h₁, h₂]
      exact ⟨by simp, hc, Nat.le_refl _⟩
    | some x =>
      obtain ⟨a, next⟩ := x
      rw [hc] at hstep
      obtain ⟨h₁, h₂⟩ := Prod.mk.inj hstep
      obtain ⟨hlen, ha⟩ := h c a next hc
      obtain ⟨hall, hnone, hlen'⟩ := ih (c := next) (by omega)
      rw [h₁, h₂, List.forall_mem_cons]
      exact ⟨⟨ha, hall⟩, hnone, by omega⟩

theorem Gives.many (h : r.Gives 1 P) : (Rule.many r).Gives 0 fun as => ∀ a ∈ as, P a := by
  intro c as c' hc
  obtain ⟨hall, -, hlen⟩ := h.upTo (Nat.lt_succ_self c.rest.length)
  obtain ⟨rfl, rfl⟩ := Prod.mk.inj (Option.some.inj hc)
  exact ⟨hlen, hall⟩

/-- A repetition ends where its rule `r` fails. -/
theorem Gives.result_many (h : r.Gives 1 P) {c c' : Cursor} {as : List α}
    (hc : (Rule.many r c).result = some (as, c')) : (r c').result = none := by
  obtain ⟨-, hnone, -⟩ := h.upTo (Nat.lt_succ_self c.rest.length)
  obtain ⟨-, rfl⟩ := Prod.mk.inj (Option.some.inj hc)
  exact hnone

theorem Gives.separated1 (h : r.Gives 1 P) {separator : Rule Unit}
    (hsep : separator.Moves) :
    (Rule.separated1 r separator).Gives 1 fun as => as ≠ [] ∧ ∀ a ∈ as, P a := by
  refine h.then fun a ha => ?_
  have hothers : (do separator; r).Gives 1 P :=
    (hsep.bind fun _ _ => h).mono (by omega) fun _ => id
  refine hothers.many.then fun as has => gives_pure ⟨List.cons_ne_nil a as, ?_⟩
  rw [List.forall_mem_cons]
  exact ⟨ha, has⟩

theorem Gives.separated (h : r.Gives 1 P) {separator : Rule Unit}
    (hsep : separator.Moves) :
    (Rule.separated r separator).Gives 0 fun as => ∀ a ∈ as, P a := by
  refine gives_choice ?_
  rw [List.forall_mem_cons, List.forall_mem_singleton]
  exact ⟨(h.separated1 hsep).mono (by omega) fun _ h => h.2, gives_pure (by simp)⟩

end Rule

open Rule Grammar

/-! ### Tokens -/

theorem gives_blank : blank.Gives 0 fun _ => True := by
  intro c a c' hc
  obtain ⟨-, rfl⟩ := Prod.mk.inj (Option.some.inj hc)
  exact ⟨length_advance c _, trivial⟩

theorem gives_symbol (s : String) : (symbol s).Gives s.length fun _ => True :=
  (gives_literal s).then fun _ _ => gives_blank

theorem gives_comma : comma.Gives 1 fun _ => True := (gives_symbol ",").quiet

theorem gives_keyword (s : String) : (keyword s).Gives s.length fun _ => True :=
  (gives_literal s).then fun _ _ => (gives_notAhead _).then fun _ _ => gives_blank

/-- The name `k` of a type is not a name. -/
theorem reads_typeName {k : String} (hk : k = "bool" ∨ k = "u64" ∨ k = "str") {cs : List Char}
    (hcs : Ends cs) :
    (do choice [literal "bool", literal "u64", literal "str"]; notAhead nameChar).Reads
      (k.toList ++ cs) () cs := by
  have hend := (fails_nameChar hcs).notAhead
  rcases hk with rfl | rfl | rfl
  · exact (reads_choice_head (reads_literal "bool" cs)).bind hend
  · refine (reads_choice_tail (fails_literal ?_)
      (reads_choice_head (reads_literal "u64" cs))).bind hend
    rintro ⟨t, ht⟩
    simp at ht
  · refine (reads_choice_tail (fails_literal ?_) (reads_choice_tail (fails_literal ?_)
      (reads_choice_head (reads_literal "str" cs)))).bind hend
    · rintro ⟨t, ht⟩
      simp at ht
    · rintro ⟨t, ht⟩
      simp at ht

theorem ends_dropWhile (cs : List Char) : Ends (cs.dropWhile isNameChar) := by
  intro c hc
  have hhead := List.head?_dropWhile_not isNameChar cs
  rw [Option.mem_def] at hc
  rw [hc] at hhead
  simpa using hhead

theorem result_oneOf {description : String} {ok : Char → Bool} {c c' : Cursor} {x : Char}
    (h : (oneOf description ok c).result = some (x, c')) :
    ok x = true ∧ ∃ rest, c.rest = x :: rest ∧ c'.rest = rest := by
  unfold oneOf at h
  split at h
  · cases h
  · next ch rest hrest =>
    split at h
    · next hok =>
      obtain ⟨rfl, rfl⟩ := Prod.mk.inj (Option.some.inj h)
      exact ⟨hok, rest, hrest, by simp [Cursor.advance, hrest]⟩
    · cases h

theorem result_notAhead {α : Type} {r : Rule α} {c c' : Cursor} {u : Unit}
    (h : (notAhead r c).result = some (u, c')) : (r c).result = none ∧ c = c' := by
  unfold notAhead at h
  split at h
  · next hr =>
    obtain ⟨-, rfl⟩ := Prod.mk.inj (Option.some.inj h)
    exact ⟨hr, rfl⟩
  · cases h

/-- What was read as a name `s` is one, and it stood at the start of the text. -/
theorem result_name {c c' : Cursor} {s : String} (h : (name c).result = some (s, c')) :
    IsName s ∧ ∃ cs, c.rest = s.toList ++ cs ∧ Ends cs ∧ c'.rest = skip cs := by
  unfold name at h
  rw [result_bind, Option.bind_eq_some_iff] at h
  obtain ⟨⟨_, c₁⟩, hahead, h⟩ := h
  obtain ⟨hnone, rfl⟩ := result_notAhead hahead
  rw [result_bind, Option.bind_eq_some_iff] at h
  obtain ⟨⟨first, c₂⟩, hfirst, h⟩ := h
  obtain ⟨hstart, rest, hrest, hc₂⟩ := result_oneOf hfirst
  rw [result_bind, Option.bind_eq_some_iff] at h
  obtain ⟨⟨others, c₃⟩, hothers, h⟩ := h
  obtain ⟨rfl, rfl⟩ := Prod.mk.inj (Option.some.inj hothers)
  obtain ⟨rfl, rfl⟩ := Prod.mk.inj (Option.some.inj h)
  have hchars : (String.ofList (first :: rest.takeWhile isNameChar)).toList =
      first :: rest.takeWhile isNameChar := String.toList_ofList
  -- the first character, those that continue the name, and the rest
  have hsplit : c.rest = first :: rest.takeWhile isNameChar ++ rest.dropWhile isNameChar := by
    rw [hrest, List.cons_append, List.takeWhile_append_dropWhile]
  rw [hc₂]
  refine ⟨⟨⟨first, _, hchars, hstart, List.all_eq_true.1 List.all_takeWhile⟩, ?_⟩,
    rest.dropWhile isNameChar, by rw [hchars, hsplit], ends_dropWhile rest, ?_⟩
  · -- the name of a type would have been seen ahead
    have hne : ∀ k, (k = "bool" ∨ k = "u64" ∨ k = "str") →
        String.ofList (first :: rest.takeWhile isNameChar) ≠ k := by
      rintro k hk rfl
      obtain ⟨offset', hreads⟩ := reads_typeName hk (ends_dropWhile rest) c.offset
      rw [hchars, ← hsplit, hnone] at hreads
      cases hreads
    exact ⟨hne _ (Or.inl rfl), hne _ (Or.inr (Or.inl rfl)), hne _ (Or.inr (Or.inr rfl))⟩
  · have hdrop : rest.drop (rest.takeWhile isNameChar).length = rest.dropWhile isNameChar := by
      nth_rewrite 2 [← List.takeWhile_append_dropWhile (p := isNameChar) (l := rest)]
      rw [List.drop_left]
    simp only [skip, Cursor.advance, hc₂, hdrop]

theorem gives_name : name.Gives 1 IsName := by
  intro c s c' hc
  obtain ⟨hs, cs, hrest, -, hcs⟩ := result_name hc
  obtain ⟨first, others, hchars, -, -⟩ := hs.word
  refine ⟨?_, hs⟩
  rw [hrest, hchars, hcs]
  have hlen := length_skip_le cs
  simp only [List.length_append, List.length_cons]
  omega

/-! ### Phrases -/

theorem gives_path : path.Gives 1 fun x => x ≠ [] ∧ ∀ s ∈ x, IsName s :=
  gives_name.separated1 (gives_symbol "::").moves

theorem moves_operands : operands.Moves := by
  refine (gives_symbol "(").moves.then fun _ => ?_
  refine (gives_name.separated gives_comma.moves).moves.then fun x => ?_
  exact (gives_symbol ")").moves.then fun _ => moves_pure x

theorem moves_ty : ty.Moves := by
  refine gives_choice ?_
  simp only [List.forall_mem_cons]
  refine ⟨Moves.then (gives_choice (k := 0) ?_) fun _ => gives_blank.then fun _ _ => moves_pure _,
    ?_, ?_, ?_, by simp⟩
  · simp only [List.forall_mem_cons]
    exact ⟨(gives_literal _).moves, (gives_literal _).moves, by simp⟩
  · exact (gives_keyword _).moves.then fun _ => moves_pure _
  · exact (gives_keyword _).moves.then fun _ => moves_pure _
  · exact (gives_keyword _).moves.then fun _ => moves_pure _

theorem gives_digit : digit.Gives 1 fun _ => True := gives_oneOf _ _

theorem moves_word : word.Moves := by
  have hdigits : digits.Moves := by
    refine gives_choice ?_
    simp only [List.forall_mem_cons]
    refine ⟨(gives_literal _).moves.then fun _ => moves_pure _, ?_, by simp⟩
    exact (gives_oneOf _ _).moves.then fun _ => gives_digit.many.moves.then fun _ => moves_pure _
  refine hdigits.then fun x => gives_blank.then fun _ _ => ?_
  split
  · exact moves_pure _
  · intro c a c' hc
    cases hc

theorem moves_hexDigit : Grammar.hexDigit.Moves := by
  refine gives_choice ?_
  simp only [List.forall_mem_cons]
  exact ⟨gives_digit.moves.then fun _ => moves_pure _,
    (gives_oneOf _ _).moves.then fun _ => moves_pure _, by simp⟩

theorem gives_stringByte : stringByte.Gives 1 fun _ => True := by
  refine gives_choice ?_
  simp only [List.forall_mem_cons]
  refine ⟨(gives_oneOf _ _).then fun _ _ => moves_pure _, ?_, by simp⟩
  refine ((gives_literal "\\x").mono (by decide) fun _ => id).then fun _ _ => ?_
  exact moves_hexDigit.then fun _ => moves_hexDigit.then fun _ => moves_pure _

theorem moves_constant : constant.Moves := by
  refine gives_choice ?_
  simp only [List.forall_mem_cons]
  refine ⟨?_, ?_, ?_, moves_word.then fun _ => moves_pure _, ?_, by simp⟩
  · exact (gives_symbol _).moves.then fun _ => moves_pure _
  · exact (gives_symbol _).moves.then fun _ => moves_pure _
  · exact (gives_symbol _).moves.then fun _ => moves_pure _
  · refine (gives_oneOf _ _).moves.then fun _ => gives_stringByte.many.moves.then fun _ => ?_
    exact (gives_oneOf _ _).moves.then fun _ => gives_blank.then fun _ _ => moves_pure _

theorem moves_comparison : comparison.Moves := by
  refine gives_choice ?_
  simp only [List.forall_mem_cons]
  exact ⟨(gives_symbol _).moves.then fun _ => moves_pure _,
    (gives_symbol _).moves.then fun _ => moves_pure _,
    (gives_symbol _).moves.then fun _ => moves_pure _,
    (gives_symbol _).moves.then fun _ => moves_pure _, by simp⟩

/-- If `d` names a point, it does so by a name. -/
def OperationDecl.PointNamed (d : OperationDecl) : Prop := ∀ x, d = .annotate x → IsName x

/-- A keyword `k`, and what belongs to it. -/
theorem gives_keyword_then {k : String} {next : Unit → Rule OperationDecl}
    {P : OperationDecl → Prop} (hk : 1 ≤ k.length) (hnext : (next ()).Gives 0 P) :
    (keyword k >>= next).Gives 1 P :=
  ((gives_keyword k).mono hk fun _ => id).then fun _ _ => hnext

theorem gives_binaryOp : binaryOp.Gives 1 fun _ => True := by
  have hword : ∀ (k : String) (op : BinaryOp), 1 ≤ k.length →
      (do keyword k; return op : Rule BinaryOp).Gives 1 fun _ => True := fun k op hk =>
    ((gives_keyword k).mono hk fun _ => id).then fun _ _ => gives_pure trivial
  refine gives_choice ?_
  simp only [List.forall_mem_cons]
  exact ⟨hword _ _ (by decide), hword _ _ (by decide), hword _ _ (by decide),
    hword _ _ (by decide), hword _ _ (by decide), hword _ _ (by decide), by simp⟩

theorem gives_operation : operation.Gives 1 OperationDecl.PointNamed := by
  have hother : ∀ {d : OperationDecl}, (∀ x, d ≠ .annotate x) → (pure d : Rule _).Gives 0
      OperationDecl.PointNamed := fun h => gives_pure fun x hx => absurd hx (h x)
  refine gives_choice ?_
  simp only [List.forall_mem_cons]
  refine ⟨?_, ?_, ?_, ?_, ?_, ?_, ?_, ?_, ?_, ?_, by simp⟩
  · refine gives_keyword_then (by decide) ((gives_name.mono (Nat.zero_le _) fun _ => id).then
      fun x hx => gives_pure ?_)
    rintro _ ⟨⟩
    exact hx
  · exact gives_keyword_then (by decide) (gives_name.moves.then fun _ =>
      moves_operands.then fun _ => hother (by simp))
  · exact gives_keyword_then (by decide) (gives_path.moves.then fun _ =>
      moves_operands.then fun _ => hother (by simp))
  · refine gives_keyword_then (by decide) (gives_name.moves.then fun _ =>
      gives_comma.moves.then fun _ => gives_name.moves.then fun _ =>
      moves_operands.then fun _ => gives_comma.moves.then fun _ => gives_name.moves.then fun _ =>
      moves_operands.then fun _ => hother (by simp))
  · exact gives_keyword_then (by decide) (moves_comparison.then fun _ =>
      gives_name.moves.then fun _ => gives_name.moves.then fun _ => hother (by simp))
  · exact gives_keyword_then (by decide) (moves_ty.then fun _ =>
      moves_constant.then fun _ => hother (by simp))
  · exact gives_keyword_then (by decide) (hother (by simp))
  · exact gives_keyword_then (by decide) (moves_ty.then fun _ =>
      gives_name.moves.then fun _ => hother (by simp))
  · exact gives_keyword_then (by decide) (gives_name.moves.then fun _ => hother (by simp))
  · exact gives_binaryOp.then fun _ _ => gives_name.moves.then fun _ =>
      gives_comma.moves.then fun _ => gives_name.moves.then fun _ => hother (by simp)

theorem gives_instruction : instruction.Gives 1 fun d => d.operation.PointNamed := by
  have hresult : (do let x ← name; symbol "="; return x).Moves :=
    gives_name.moves.then fun _ => (gives_symbol _).moves.then fun _ => moves_pure _
  refine (Gives.bind (k := 0) hresult.optional fun result _ =>
    gives_operation.then fun op hop => gives_pure ?_).mono (Nat.le_refl _) fun _ => id
  exact hop

/-! ### Blocks -/

/-- The words of the block `d`: its label is a name, and so are those of its points. -/
structure BlockDecl.Worded (d : BlockDecl) : Prop where
  /-- The label is a name. -/
  label : IsName d.label
  /-- Points are named by names. -/
  points : ∀ x ∈ d.body, x.operation.PointNamed

theorem gives_parameters : parameters.Gives 0 fun xs => ∀ x ∈ xs, IsName x.1 := by
  have hparameter : parameter.Gives 1 fun x => IsName x.1 :=
    gives_name.then fun _ hx => (gives_symbol _).moves.then fun _ =>
      moves_ty.then fun _ => gives_pure hx
  refine (gives_symbol "(").moves.then fun _ => ?_
  refine (hparameter.separated gives_comma.moves).then fun xs hxs => ?_
  exact (gives_symbol ")").moves.then fun _ => gives_pure hxs

theorem gives_block : block.Gives 1 BlockDecl.Worded :=
  gives_name.then fun _ hlabel => gives_parameters.moves.then fun _ =>
    (gives_symbol _).moves.then fun _ => gives_instruction.many.then fun _ hbody =>
      gives_pure ⟨hlabel, hbody⟩

theorem result_symbol {s : String} {c : Cursor} {x : Unit × Cursor}
    (h : (symbol s c).result = some x) : s.toList <+: c.rest := by
  unfold symbol at h
  rw [result_bind, Option.bind_eq_some_iff] at h
  obtain ⟨y, hy, -⟩ := h
  unfold literal at hy
  split at hy
  · next hprefix => exact List.isPrefixOf_iff_prefix.1 hprefix
  · cases hy

/-- The word `nop` before a list of parameters can be read as an instruction. -/
theorem reads_nop {cs : List Char} (hcs : Ends cs) (hopen : "(".toList <+: skip cs) :
    instruction.Reads ("nop".toList ++ cs) ⟨none, .nop⟩ (skip cs) := by
  refine reads_instruction (d := ⟨none, .nop⟩) ⟨by simp, trivial⟩ hcs fun c hc => ?_
  obtain ⟨t, ht⟩ := hopen
  rw [← ht] at hc
  simp at hc
  subst hc
  decide

/-- A block `d` ends where no instruction can be read, and if it starts at such a place, its
label is not `nop`. -/
theorem result_block {c c' : Cursor} {d : BlockDecl} (h : (block c).result = some (d, c')) :
    (instruction c').result = none ∧ ((instruction c).result = none → d.label ≠ "nop") := by
  unfold block at h
  rw [result_bind, Option.bind_eq_some_iff] at h
  obtain ⟨⟨label, c₁⟩, hlabel, h⟩ := h
  rw [result_bind, Option.bind_eq_some_iff] at h
  obtain ⟨⟨params, c₂⟩, hparams, h⟩ := h
  rw [result_bind, Option.bind_eq_some_iff] at h
  obtain ⟨⟨_, c₃⟩, -, h⟩ := h
  rw [result_bind, Option.bind_eq_some_iff] at h
  obtain ⟨⟨body, c₄⟩, hbody, h⟩ := h
  obtain ⟨rfl, rfl⟩ := Prod.mk.inj (Option.some.inj h)
  refine ⟨gives_instruction.result_many hbody, fun hnone hnop => ?_⟩
  -- the label is followed by parameters, so it would have been read as an instruction
  obtain ⟨-, cs, hrest, hends, hc₁⟩ := result_name hlabel
  unfold parameters at hparams
  rw [result_bind, Option.bind_eq_some_iff] at hparams
  obtain ⟨x, hopen, -⟩ := hparams
  have hprefix := result_symbol hopen
  dsimp only at hnop hprefix
  rw [hc₁] at hprefix
  obtain ⟨offset, hreads⟩ := reads_nop hends hprefix c.offset
  rw [← hnop, ← hrest, hnone] at hreads
  cases hreads

/-- Blocks read at a place where no instruction can be read are not labelled `nop`. -/
theorem label_upTo_block {n : Nat} : ∀ {c : Cursor}, (instruction c).result = none →
    ∀ d ∈ (upTo block n c).1, d.label ≠ "nop" := by
  induction n with
  | zero =>
    intro c _ d hd
    cases hd
  | succ n ih =>
    intro c hc
    have hstep := congrArg Prod.fst (upTo_succ block n c)
    dsimp only at hstep
    rw [hstep]
    cases hblock : (block c).result with
    | none => simp
    | some x =>
      obtain ⟨d, next⟩ := x
      obtain ⟨hnext, hlabel⟩ := result_block hblock
      rw [List.forall_mem_cons]
      exact ⟨hlabel hc, ih hnext⟩

theorem label_tail_upTo_block {n : Nat} {c : Cursor} :
    ∀ d ∈ (upTo block n c).1.tail, d.label ≠ "nop" := by
  cases n with
  | zero =>
    intro d hd
    cases hd
  | succ n =>
    have hstep := congrArg Prod.fst (upTo_succ block n c)
    dsimp only at hstep
    rw [hstep]
    cases hblock : (block c).result with
    | none => simp
    | some x =>
      obtain ⟨d, next⟩ := x
      exact label_upTo_block (result_block hblock).1

/-! ### Functions -/

/-- The words of the function `d`. -/
structure FunctionDecl.Worded (d : FunctionDecl) : Prop where
  /-- There is a path. -/
  path_ne : d.path ≠ []
  /-- Its segments are names. -/
  path : ∀ x ∈ d.path, IsName x
  /-- The arguments are named by names. -/
  args : ∀ x ∈ d.args, IsName x.1
  /-- So are the blocks and their points. -/
  blocks : ∀ bs ∈ d.blocks, ∀ b ∈ bs, b.Worded
  /-- The blocks after the first are not labelled `nop`. -/
  labels : ∀ bs ∈ d.blocks, ∀ b ∈ bs.tail, b.label ≠ "nop"

theorem gives_body : body.Gives 0 fun bs =>
    (∀ b ∈ bs, b.Worded) ∧ ∀ b ∈ bs.tail, b.label ≠ "nop" := by
  have hblocks : (many block).Gives 0 fun bs =>
      (∀ b ∈ bs, b.Worded) ∧ ∀ b ∈ bs.tail, b.label ≠ "nop" := by
    intro c bs c' hc
    obtain ⟨hlen, hworded⟩ := gives_block.many c bs c' hc
    obtain ⟨rfl, rfl⟩ := Prod.mk.inj (Option.some.inj hc)
    exact ⟨hlen, hworded, label_tail_upTo_block (n := c.rest.length + 1)⟩
  refine (gives_symbol _).moves.then fun _ => hblocks.then fun bs hbs => ?_
  exact (gives_symbol _).moves.then fun _ => gives_pure hbs

theorem gives_function : function.Gives 1 FunctionDecl.Worded := by
  refine ((gives_symbol "fn").mono (by decide) fun _ => id).then fun _ _ => ?_
  refine (gives_path.mono (Nat.zero_le _) fun _ => id).then fun path hpath => ?_
  refine gives_parameters.then fun args hargs => ?_
  refine (gives_symbol "->").moves.then fun _ => moves_ty.then fun returnType => ?_
  refine gives_body.optional.then fun blocks hblocks => gives_pure ?_
  exact ⟨hpath.1, hpath.2, hargs, fun bs hbs => (hblocks bs hbs).1,
    fun bs hbs => (hblocks bs hbs).2⟩

/-- The trees `ds` of a text are worded. -/
theorem worded_of_read {text : String} {ds : List FunctionDecl} (h : read text = .ok ds) :
    ∀ d ∈ ds, d.Worded := by
  have hprogram : program.Gives 0 fun ds => ∀ d ∈ ds, d.Worded := by
    refine gives_blank.then fun _ _ => (gives_symbol "module").moves.then fun _ => ?_
    refine (gives_symbol _).moves.then fun _ => gives_function.many.then fun ds hds => ?_
    refine (gives_symbol _).moves.then fun _ => ?_
    have hend : endOfText.Moves := by
      intro c a c' hc
      unfold endOfText at hc
      split at hc
      · obtain ⟨-, rfl⟩ := Prod.mk.inj (Option.some.inj hc)
        exact ⟨Nat.le_refl _, trivial⟩
      · cases hc
    exact hend.then fun _ => gives_pure hds
  unfold read at h
  split at h
  · next functions c failure hrun =>
    cases h
    exact (hprogram _ ds c (by rw [hrun])).2
  · cases h

end FlowFacts.Source
