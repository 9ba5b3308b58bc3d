import FlowFacts.Proofs.Source.Named
import FlowFacts.Source.Load

/-!
# Texts that cannot be read

If a text does not follow the grammar, the message shows what follows the furthest failure, up to
twenty bytes.  The failure is always at a position of the text, so there is something to show, be
it nothing.  But twenty bytes need not be whole characters: if a character starts before the
twentieth byte and ends behind it, loading stops without a message.  This is the only way in which
it does, and nothing in front of the failure matters for it.

## Main definitions

* `Splits`, `Excerpts` — what can be shown of the characters behind a failure.
* `Rule.Stays` — a rule stays within the text.
* `Refused` — the grammar does not read a text.

## Main results

* `excerpt_eq_none_iff` — characters without an excerpt.
* `offset_le_of_refused` — failures are at positions of the text.
* `load_outcomes` — what becomes of a text, whatever it is.
-/

namespace FlowFacts.Source

/-! ### Excerpts -/

@[simp] theorem byteLength_nil : byteLength [] = 0 := rfl

@[simp] theorem byteLength_cons (c : Char) (cs : List Char) :
    byteLength (c :: cs) = c.utf8Size + byteLength cs := rfl

theorem byteLength_append (cs ds : List Char) :
    byteLength (cs ++ ds) = byteLength cs + byteLength ds := by
  induction cs with
  | nil => simp
  | cons c cs ih =>
    rw [List.cons_append, byteLength_cons, ih, byteLength_cons]
    omega

/-- A character of `cs` starts before the end of `n` bytes and ends behind it. -/
def SplitsAt (n : Nat) (cs : List Char) : Prop :=
  ∃ before c after, cs = before ++ c :: after ∧ byteLength before < n ∧
    n < byteLength before + c.utf8Size

/-- The longest excerpt of `rest` would end inside a character. -/
def Splits (rest : List Char) : Prop := SplitsAt excerptBytes rest

theorem splitsAt_cons_iff {n : Nat} {c : Char} {cs : List Char} (h : c.utf8Size ≤ n) :
    SplitsAt n (c :: cs) ↔ SplitsAt (n - c.utf8Size) cs := by
  constructor
  · rintro ⟨before, d, after, heq, hlt, hgt⟩
    cases before with
    | nil =>
      obtain ⟨rfl, -⟩ := List.cons.inj heq
      rw [byteLength_nil] at hgt
      omega
    | cons d' before =>
      obtain ⟨rfl, rfl⟩ := List.cons.inj heq
      rw [byteLength_cons] at hlt hgt
      exact ⟨before, d, after, rfl, by omega, by omega⟩
  · rintro ⟨before, d, after, rfl, hlt, hgt⟩
    refine ⟨c :: before, d, after, rfl, ?_, ?_⟩
    · rw [byteLength_cons]
      omega
    · rw [byteLength_cons]
      omega

/-- The first `n` bytes of `cs` cannot be taken if a character would be split. -/
theorem takeBytes_eq_none_iff {cs : List Char} : ∀ {n : Nat},
    takeBytes n cs = none ↔ SplitsAt n cs := by
  induction cs with
  | nil => simp [takeBytes, SplitsAt]
  | cons c cs ih =>
    intro n
    rw [takeBytes]
    split
    · next hn => simp [SplitsAt, hn]
    · next hn =>
      split
      · next hle => rw [Option.map_eq_none_iff, ih, splitsAt_cons_iff hle]
      · next hgt =>
        refine iff_of_true rfl ⟨[], c, cs, rfl, ?_, ?_⟩
        · rw [byteLength_nil]
          omega
        · rw [byteLength_nil]
          omega

theorem takeBytes_eq_some {cs taken : List Char} : ∀ {n : Nat}, takeBytes n cs = some taken →
    taken <+: cs ∧ (byteLength taken = n ∨ taken = cs ∧ byteLength cs ≤ n) := by
  induction cs generalizing taken with
  | nil =>
    intro n h
    obtain rfl := Option.some.inj h
    exact ⟨List.prefix_rfl, Or.inr ⟨rfl, Nat.zero_le n⟩⟩
  | cons c cs ih =>
    intro n h
    rw [takeBytes] at h
    split at h
    · next hn =>
      obtain rfl := Option.some.inj h
      exact ⟨List.nil_prefix, Or.inl hn.symm⟩
    · split at h
      · next hle =>
        obtain ⟨taken', htaken', rfl⟩ := Option.map_eq_some_iff.1 h
        obtain ⟨hfront, hlength⟩ := ih htaken'
        refine ⟨List.cons_prefix_cons.2 ⟨rfl, hfront⟩, ?_⟩
        rw [byteLength_cons, byteLength_cons]
        refine hlength.imp (fun hlength => ?_) fun ⟨heq, hlength⟩ => ⟨congrArg (c :: ·) heq, ?_⟩
        · omega
        · omega
      · cases h

/-- What is `found` of the `rest` behind a failure: all of it if there are at most twenty bytes,
else twenty bytes. -/
structure Excerpts (rest found : List Char) : Prop where
  /-- The excerpt starts at the failure. -/
  start : found <+: rest
  /-- A short rest is shown as a whole. -/
  whole : byteLength rest ≤ excerptBytes → found = rest
  /-- Of a long one twenty bytes are shown. -/
  cut : excerptBytes < byteLength rest → byteLength found = excerptBytes

/-- There is no excerpt of `rest` if it would end inside a character. -/
theorem excerpt_eq_none_iff {rest : List Char} : excerpt rest = none ↔ Splits rest := by
  rw [excerpt]
  split
  · next hle =>
    refine iff_of_false (by simp) ?_
    rintro ⟨before, c, after, rfl, -, hgt⟩
    rw [byteLength_append, byteLength_cons] at hle
    omega
  · rw [Option.map_eq_none_iff, takeBytes_eq_none_iff, Splits]

theorem excerpts_of_excerpt {rest : List Char} {found : String} (h : excerpt rest = some found) :
    Excerpts rest found.toList := by
  rw [excerpt] at h
  split at h
  · next hle =>
    obtain rfl := Option.some.inj h
    rw [String.toList_ofList]
    exact ⟨List.prefix_rfl, fun _ => rfl, fun hlt => absurd hle (Nat.not_le.2 hlt)⟩
  · next hgt =>
    obtain ⟨taken, htaken, rfl⟩ := Option.map_eq_some_iff.1 h
    rw [String.toList_ofList]
    obtain ⟨hfront, hlength⟩ := takeBytes_eq_some htaken
    refine ⟨hfront, fun hle => absurd hle hgt, fun _ => hlength.resolve_right ?_⟩
    exact fun hwhole => hgt hwhole.2

/-- If all characters of `rest` take one byte, none is split. -/
theorem not_splits_of_forall {rest : List Char} (h : ∀ c ∈ rest, c.utf8Size = 1) :
    ¬ Splits rest := by
  rintro ⟨before, c, after, rfl, hlt, hgt⟩
  rw [h c (by simp)] at hgt
  omega

/-! ### Rules stay within the text -/

/-- The cursor `c` is at a position of the `text`. -/
structure Cursor.At (text : List Char) (c : Cursor) : Prop where
  /-- What is left is the text behind the position. -/
  rest : c.rest = text.drop c.offset
  /-- The position is not behind the end. -/
  offset_le : c.offset ≤ text.length

theorem Cursor.At.advance {text : List Char} {c : Cursor} (h : c.At text) {n : Nat}
    (hn : n ≤ c.rest.length) : (c.advance n).At text := by
  refine ⟨?_, ?_⟩
  · rw [Cursor.advance, h.rest, List.drop_drop]
  · have hle := h.offset_le
    rw [h.rest, List.length_drop] at hn
    rw [Cursor.advance]
    show c.offset + n ≤ text.length
    omega

theorem offset_merge (a b : Furthest) : (a.merge b).offset = max a.offset b.offset := by
  unfold Furthest.merge
  split
  · omega
  · split
    · omega
    · show a.offset = max a.offset b.offset
      omega

namespace Rule

variable {α β : Type} {r : Rule α}

/-- From a position of a text the rule `r` goes to another one, and it fails at one at most. -/
structure Stays (r : Rule α) : Prop where
  /-- The position behind what was read. -/
  result : ∀ {text c a c'}, Cursor.At text c → (r c).result = some (a, c') → c'.At text
  /-- The position of the failure. -/
  failure : ∀ {text c}, Cursor.At text c → (r c).failure.offset ≤ text.length

theorem stays_pure (a : α) : (pure a : Rule α).Stays where
  result hc h := by
    obtain ⟨-, rfl⟩ := Prod.mk.inj (Option.some.inj h)
    exact hc
  failure _ := Nat.zero_le _

theorem failure_bind (r : Rule α) (k : α → Rule β) (c : Cursor) :
    ((r >>= k) c).failure = (r c).result.elim (r c).failure fun x =>
      (r c).failure.merge (k x.1 x.2).failure := by
  change (andThen r k c).failure = _
  unfold andThen
  split
  · next h => rw [h]; rfl
  · next h => rw [h]; rfl

theorem Stays.bind {k : α → Rule β} (h : r.Stays) (hk : ∀ a, (k a).Stays) : (r >>= k).Stays where
  result {text c b c'} hc hresult := by
    rw [result_bind, Option.bind_eq_some_iff] at hresult
    obtain ⟨⟨a, next⟩, hnext, hresult⟩ := hresult
    exact (hk a).result (h.result hc hnext) hresult
  failure {text c} hc := by
    rw [failure_bind]
    cases hresult : (r c).result with
    | none => exact h.failure hc
    | some x =>
      show ((r c).failure.merge (k x.1 x.2).failure).offset ≤ text.length
      rw [offset_merge]
      exact Nat.max_le.2 ⟨h.failure hc, (hk x.1).failure (h.result hc hresult)⟩

theorem stays_fail (expected : String) : (fail expected : Rule α).Stays where
  result _ h := nomatch h
  failure hc := hc.offset_le

/-- A rule that skips `n` characters which are there. -/
theorem stays_advance {n : Cursor → Nat} (hn : ∀ c, n c ≤ c.rest.length) {value : Cursor → α} :
    Stays fun c => succeed (value c) (c.advance (n c)) where
  result {text c a c'} hc h := by
    obtain ⟨-, rfl⟩ := Prod.mk.inj (Option.some.inj h)
    exact hc.advance (hn c)
  failure _ := Nat.zero_le _

theorem stays_literal (s : String) : (literal s).Stays := by
  have hlength : ∀ {c : Cursor}, s.toList.isPrefixOf c.rest = true → s.length ≤ c.rest.length := by
    intro c hfront
    rw [← String.length_toList]
    exact (List.isPrefixOf_iff_prefix.1 hfront).length_le
  refine ⟨fun {text c a c'} hc h => ?_, fun {text c} hc => ?_⟩
  · rw [literal] at h
    split at h
    · next hfront =>
      obtain ⟨-, rfl⟩ := Prod.mk.inj (Option.some.inj h)
      exact hc.advance (hlength hfront)
    · cases h
  · rw [literal]
    split
    · exact Nat.zero_le _
    · exact hc.offset_le

theorem stays_oneOf (description : String) (ok : Char → Bool) : (oneOf description ok).Stays := by
  refine ⟨fun {text c a c'} hc h => ?_, fun {text c} hc => ?_⟩
  · unfold oneOf at h
    split at h
    · cases h
    · next ch rest hrest =>
      split at h
      · obtain ⟨-, rfl⟩ := Prod.mk.inj (Option.some.inj h)
        exact hc.advance (by simp [hrest])
      · cases h
  · unfold oneOf
    split
    · exact hc.offset_le
    · split
      · exact Nat.zero_le _
      · exact hc.offset_le

theorem stays_takeWhile (ok : Char → Bool) : (Rule.takeWhile ok).Stays :=
  stays_advance fun _ => (List.takeWhile_prefix ok).length_le

theorem stays_endOfText : endOfText.Stays := by
  refine ⟨fun {text c a c'} hc h => ?_, fun {text c} hc => ?_⟩
  · unfold endOfText at h
    split at h
    · obtain ⟨-, rfl⟩ := Prod.mk.inj (Option.some.inj h)
      exact hc
    · cases h
  · unfold endOfText
    split
    · exact Nat.zero_le _
    · exact hc.offset_le

theorem failure_choice_cons (r : Rule α) (rs : List (Rule α)) (c : Cursor) :
    (choice (r :: rs) c).failure.offset ≤
      max (r c).failure.offset (choice rs c).failure.offset := by
  rw [choice]
  beta_reduce
  split
  · next h => rw [h]; exact Nat.le_max_left _ _
  · next h => rw [h]; exact Nat.le_of_eq (offset_merge _ _)

theorem stays_choice {rs : List (Rule α)} (h : ∀ r ∈ rs, r.Stays) : (choice rs).Stays := by
  induction rs with
  | nil => exact ⟨fun _ hresult => (nomatch hresult), fun _ => Nat.zero_le _⟩
  | cons r rs ih =>
    rw [List.forall_mem_cons] at h
    refine ⟨fun {text c a c'} hc hresult => ?_, fun {text c} hc => ?_⟩
    · rw [result_choice_cons, Option.or_eq_some_iff] at hresult
      rcases hresult with hresult | ⟨-, hresult⟩
      · exact h.1.result hc hresult
      · exact (ih h.2).result hc hresult
    · exact Nat.le_trans (failure_choice_cons r rs c)
        (Nat.max_le.2 ⟨h.1.failure hc, (ih h.2).failure hc⟩)

theorem Stays.optional (h : r.Stays) : (Rule.optional r).Stays := by
  refine stays_choice ?_
  rw [List.forall_mem_cons, List.forall_mem_singleton]
  exact ⟨h.bind fun a => stays_pure (some a), stays_pure none⟩

theorem Stays.quiet (h : r.Stays) : (Rule.quiet r).Stays := ⟨h.result, fun _ => Nat.zero_le _⟩

theorem stays_notAhead (r : Rule α) : (Rule.notAhead r).Stays := by
  refine ⟨fun {text c a c'} hc h => ?_, fun {text c} hc => ?_⟩
  · obtain ⟨-, rfl⟩ := result_notAhead h
    exact hc
  · unfold Rule.notAhead
    split
    · exact Nat.zero_le _
    · exact Nat.zero_le _

/-- At most `n` rounds of a repetition. -/
theorem Stays.upTo (h : r.Stays) {text : List Char} : ∀ {n : Nat} {c : Cursor}, c.At text →
    (Rule.upTo r n c).2.1.At text ∧ (Rule.upTo r n c).2.2.offset ≤ text.length := by
  intro n
  induction n with
  | zero => exact fun hc => ⟨hc, Nat.zero_le _⟩
  | succ n ih =>
    intro c hc
    rw [Rule.upTo]
    split
    · next failure hr =>
      have hfailure := h.failure hc
      rw [hr] at hfailure
      exact ⟨hc, hfailure⟩
    · next a next failure hr =>
      have hfailure := h.failure hc
      have hnext : next.At text := h.result hc (by rw [hr])
      rw [hr] at hfailure
      refine ⟨(ih hnext).1, ?_⟩
      show (failure.merge (Rule.upTo r n next).2.2).offset ≤ text.length
      rw [offset_merge]
      exact Nat.max_le.2 ⟨hfailure, (ih hnext).2⟩

theorem Stays.many (h : r.Stays) : (Rule.many r).Stays := by
  refine ⟨fun {text c as c'} hc hresult => ?_, fun {text c} hc => ?_⟩
  · obtain ⟨hstop, -⟩ := h.upTo hc (n := c.rest.length + 1)
    obtain ⟨-, rfl⟩ := Prod.mk.inj (Option.some.inj hresult)
    exact hstop
  · exact (h.upTo hc (n := c.rest.length + 1)).2

theorem Stays.separated1 (h : r.Stays) {separator : Rule Unit} (hsep : separator.Stays) :
    (Rule.separated1 r separator).Stays :=
  h.bind fun _ => (hsep.bind fun _ => h).many.bind fun _ => stays_pure _

theorem Stays.separated (h : r.Stays) {separator : Rule Unit} (hsep : separator.Stays) :
    (Rule.separated r separator).Stays := by
  refine stays_choice ?_
  rw [List.forall_mem_cons, List.forall_mem_singleton]
  exact ⟨h.separated1 hsep, stays_pure []⟩

end Rule

open Rule Grammar

/-! ### The grammar stays within the text -/

theorem blankLength_le : ∀ (inComment : Bool) (cs : List Char),
    blankLength inComment cs ≤ cs.length := by
  intro inComment cs
  induction cs generalizing inComment with
  | nil => cases inComment <;> exact Nat.le_refl 0
  | cons c cs ih =>
    cases inComment with
    | true =>
      have hrest := ih !(c == '\n' || c == '\r')
      rw [blankLength, List.length_cons]
      omega
    | false =>
      have hblank := ih false
      have hcomment := ih true
      rw [blankLength, List.length_cons]
      split
      · omega
      · split
        · omega
        · omega

theorem stays_blank : blank.Stays := stays_advance fun c => blankLength_le false c.rest

theorem stays_symbol (s : String) : (symbol s).Stays := (stays_literal s).bind fun _ => stays_blank

theorem stays_comma : comma.Stays := (stays_symbol ",").quiet

theorem stays_keyword (s : String) : (keyword s).Stays :=
  (stays_literal s).bind fun _ => (stays_notAhead nameChar).bind fun _ => stays_blank

theorem stays_name : name.Stays :=
  (stays_notAhead _).bind fun _ => (stays_oneOf "" isNameStart).quiet.bind fun _ =>
    (stays_takeWhile isNameChar).bind fun _ => stays_blank.bind fun _ => stays_pure _

theorem stays_path : path.Stays := stays_name.separated1 (stays_symbol "::")

/-- Alternatives, each of which stays within the text. -/
theorem stays_ty : ty.Stays := by
  refine stays_choice ?_
  simp only [List.forall_mem_cons]
  refine ⟨(stays_choice ?_).bind fun _ => stays_blank.bind fun _ => stays_pure _,
    (stays_keyword _).bind fun _ => stays_pure _, (stays_keyword _).bind fun _ => stays_pure _,
    (stays_keyword _).bind fun _ => stays_pure _, by simp⟩
  simp only [List.forall_mem_cons]
  exact ⟨stays_literal _, stays_literal _, by simp⟩

theorem stays_digit : digit.Stays := stays_oneOf _ _

theorem stays_digits : digits.Stays := by
  refine stays_choice ?_
  simp only [List.forall_mem_cons]
  exact ⟨(stays_literal _).bind fun _ => stays_pure _,
    (stays_oneOf _ _).bind fun _ => stays_digit.many.bind fun _ => stays_pure _, by simp⟩

theorem stays_word : word.Stays := by
  refine stays_digits.bind fun x => stays_blank.bind fun _ => ?_
  split
  · exact stays_pure _
  · exact stays_fail _

theorem stays_hexDigit : Grammar.hexDigit.Stays := by
  refine stays_choice ?_
  simp only [List.forall_mem_cons]
  exact ⟨stays_digit.bind fun _ => stays_pure _, (stays_oneOf _ _).bind fun _ => stays_pure _,
    by simp⟩

theorem stays_stringByte : stringByte.Stays := by
  refine stays_choice ?_
  simp only [List.forall_mem_cons]
  exact ⟨(stays_oneOf _ _).bind fun _ => stays_pure _, (stays_literal _).bind fun _ =>
    stays_hexDigit.bind fun _ => stays_hexDigit.bind fun _ => stays_pure _, by simp⟩

/-- A symbol that stands for a value. -/
theorem stays_symbol_pure {α : Type} (s : String) (a : α) :
    (do symbol s; return a : Rule α).Stays := (stays_symbol s).bind fun _ => stays_pure a

theorem stays_constant : constant.Stays := by
  refine stays_choice ?_
  simp only [List.forall_mem_cons]
  refine ⟨stays_symbol_pure _ _, stays_symbol_pure _ _, stays_symbol_pure _ _,
    stays_word.bind fun _ => stays_pure _, ?_, by simp⟩
  exact (stays_oneOf _ _).bind fun _ => stays_stringByte.many.bind fun _ =>
    (stays_oneOf _ _).bind fun _ => stays_blank.bind fun _ => stays_pure _

theorem stays_operands : operands.Stays :=
  (stays_symbol _).bind fun _ => (stays_name.separated stays_comma).bind fun _ =>
    (stays_symbol _).bind fun _ => stays_pure _

theorem stays_comparison : comparison.Stays := by
  refine stays_choice ?_
  simp only [List.forall_mem_cons]
  exact ⟨stays_symbol_pure _ _, stays_symbol_pure _ _, stays_symbol_pure _ _,
    stays_symbol_pure _ _, by simp⟩

theorem stays_binaryOp : binaryOp.Stays := by
  have hword : ∀ (k : String) (op : BinaryOp), (do keyword k; return op : Rule BinaryOp).Stays :=
    fun k op => (stays_keyword k).bind fun _ => stays_pure op
  refine stays_choice ?_
  simp only [List.forall_mem_cons]
  exact ⟨hword _ _, hword _ _, hword _ _, hword _ _, hword _ _, hword _ _, by simp⟩

theorem stays_operation : operation.Stays := by
  refine stays_choice ?_
  simp only [List.forall_mem_cons]
  refine ⟨?_, ?_, ?_, ?_, ?_, ?_, ?_, ?_, ?_, ?_, by simp⟩
  · exact (stays_keyword _).bind fun _ => stays_name.bind fun _ => stays_pure _
  · exact (stays_keyword _).bind fun _ => stays_name.bind fun _ =>
      stays_operands.bind fun _ => stays_pure _
  · exact (stays_keyword _).bind fun _ => stays_path.bind fun _ =>
      stays_operands.bind fun _ => stays_pure _
  · exact (stays_keyword _).bind fun _ => stays_name.bind fun _ => stays_comma.bind fun _ =>
      stays_name.bind fun _ => stays_operands.bind fun _ => stays_comma.bind fun _ =>
      stays_name.bind fun _ => stays_operands.bind fun _ => stays_pure _
  · exact (stays_keyword _).bind fun _ => stays_comparison.bind fun _ =>
      stays_name.bind fun _ => stays_name.bind fun _ => stays_pure _
  · exact (stays_keyword _).bind fun _ => stays_ty.bind fun _ =>
      stays_constant.bind fun _ => stays_pure _
  · exact (stays_keyword _).bind fun _ => stays_pure _
  · exact (stays_keyword _).bind fun _ => stays_ty.bind fun _ =>
      stays_name.bind fun _ => stays_pure _
  · exact (stays_keyword _).bind fun _ => stays_name.bind fun _ => stays_pure _
  · exact stays_binaryOp.bind fun _ => stays_name.bind fun _ => stays_comma.bind fun _ =>
      stays_name.bind fun _ => stays_pure _

theorem stays_instruction : instruction.Stays := by
  have hresult : (do let x ← name; symbol "="; return x : Rule String).Stays :=
    stays_name.bind fun _ => (stays_symbol _).bind fun _ => stays_pure _
  exact hresult.optional.bind fun _ => stays_operation.bind fun _ => stays_pure _

theorem stays_parameters : parameters.Stays := by
  have hparameter : parameter.Stays :=
    stays_name.bind fun _ => (stays_symbol _).bind fun _ => stays_ty.bind fun _ => stays_pure _
  exact (stays_symbol _).bind fun _ => (hparameter.separated stays_comma).bind fun _ =>
    (stays_symbol _).bind fun _ => stays_pure _

theorem stays_block : block.Stays :=
  stays_name.bind fun _ => stays_parameters.bind fun _ => (stays_symbol _).bind fun _ =>
    stays_instruction.many.bind fun _ => stays_pure _

theorem stays_body : body.Stays :=
  (stays_symbol _).bind fun _ => stays_block.many.bind fun _ =>
    (stays_symbol _).bind fun _ => stays_pure _

theorem stays_function : function.Stays :=
  (stays_symbol _).bind fun _ => stays_path.bind fun _ => stays_parameters.bind fun _ =>
    (stays_symbol _).bind fun _ => stays_ty.bind fun _ => stays_body.optional.bind fun _ =>
      stays_pure _

theorem stays_program : program.Stays :=
  stays_blank.bind fun _ => (stays_symbol _).bind fun _ => (stays_symbol _).bind fun _ =>
    stays_function.many.bind fun _ => (stays_symbol _).bind fun _ =>
      stays_endOfText.bind fun _ => stays_pure _

/-! ### What becomes of a text -/

/-- The grammar does not read the `text`, and `failure` is the furthest failure. -/
structure Refused (text : String) (failure : Furthest) : Prop where
  /-- Nothing is read. -/
  result : (program { rest := text.toList }).result = none
  /-- The furthest failure. -/
  failure_eq : (program { rest := text.toList }).failure = failure

theorem offset_le_of_refused {text : String} {failure : Furthest} (h : Refused text failure) :
    failure.offset ≤ text.length := by
  have hstart : Cursor.At text.toList { rest := text.toList } := ⟨rfl, Nat.zero_le _⟩
  rw [← h.failure_eq, ← String.length_toList]
  exact stays_program.failure hstart

theorem read_eq_error_iff {text : String} {e : LoadError} :
    read text = .error e ↔
      ∃ failure, Refused text failure ∧ unexpectedAt text.toList failure = e := by
  unfold read
  constructor
  · intro h
    split at h
    · cases h
    · next failure hrun => exact ⟨failure, ⟨by rw [hrun], by rw [hrun]⟩, Except.error.inj h⟩
  · rintro ⟨failure, hrefused, rfl⟩
    have hresult := hrefused.result
    have hfailure := hrefused.failure_eq
    split
    · next hrun =>
      rw [hrun] at hresult
      cases hresult
    · next failure' hrun =>
      rw [hrun] at hfailure
      rw [show failure' = failure from hfailure]

theorem load_eq_error_of_read {text : String} {e : LoadError} (h : read text = .error e) :
    load text = .error e := by
  rw [load, h]
  rfl

/-- Whatever is found after the `text` was read is a fault. -/
theorem load_eq_splitCharacter_iff {text : String} :
    load text = .error .splitCharacter ↔ read text = .error .splitCharacter := by
  refine ⟨fun h => ?_, load_eq_error_of_read⟩
  cases hread : read text with
  | error e =>
    rw [load_eq_error_of_read hread] at h
    rw [Except.error.inj h]
  | ok functions =>
    rw [load, hread] at h
    cases hresolve : resolve functions with
    | error fault => simp [hresolve, bind, Except.bind, Except.mapError] at h
    | ok p =>
      cases hvalid : p.validate with
      | error fault => simp [hresolve, hvalid, bind, Except.bind, Except.mapError] at h
      | ok => simp [hresolve, hvalid, bind, Except.bind, Except.mapError, pure, Except.pure] at h

theorem unexpectedAt_eq_splitCharacter_iff {text : List Char} {failure : Furthest} :
    unexpectedAt text failure = .splitCharacter ↔ Splits (text.drop failure.offset) := by
  rw [← excerpt_eq_none_iff, unexpectedAt]
  cases excerpt (text.drop failure.offset) with
  | none => simp
  | some found => simp

/-! ### Behind a module -/

theorem merge_empty (failure : Furthest) : Furthest.merge {} failure = failure := by
  obtain ⟨offset, expected⟩ := failure
  cases offset <;> simp [Furthest.merge]

theorem bind_apply {α β : Type} {r : Rule α} {k : α → Rule β} {c c' : Cursor} {a : α}
    {failure : Furthest} (h : r c = { result := some (a, c'), failure }) :
    (r >>= k) c = ⟨(k a c').result, failure.merge (k a c').failure⟩ := by
  change andThen r k c = _
  rw [andThen, h]

/-- A rule `r` that reads without a failure goes on with the next one. -/
theorem bind_apply_of_empty {α β : Type} {r : Rule α} {k : α → Rule β} {c c' : Cursor} {a : α}
    (h : r c = { result := some (a, c') }) : (r >>= k) c = k a c' := by
  rw [bind_apply h, merge_empty]

theorem symbol_apply (s : String) (cs : List Char) (offset : Nat) :
    symbol s ⟨s.toList ++ cs, offset⟩ =
      { result := some ((), ⟨skip cs, offset + s.length + blankLength false cs⟩) } := by
  rw [symbol, bind_apply_of_empty (literal_append s cs offset)]
  rfl

/-- Behind a module nothing but blanks may follow: a character `c` that is none is refused. -/
theorem program_behind_module {c : Char} {cs : List Char} (hc : isSolid c = true) :
    program { rest := "module \x7b\x7d".toList ++ c :: cs } =
      { result := none, failure := ⟨9, ["end of input"]⟩ } := by
  have hblank : blankLength false (c :: cs) = 0 := by
    simp only [isSolid, Bool.not_eq_true', Bool.or_eq_false_iff, beq_eq_false_iff_ne] at hc
    simp [blankLength, hc]
  -- the rules of a module one after another, each from the position where the last one stopped
  have hstart : blank { rest := "module \x7b\x7d".toList ++ c :: cs } =
      { result := some ((), ⟨"module".toList ++ (" \x7b\x7d".toList ++ c :: cs), 0⟩) } := rfl
  have hmodule : symbol "module" ⟨"module".toList ++ (" \x7b\x7d".toList ++ c :: cs), 0⟩ =
      { result := some ((), ⟨"\x7b".toList ++ ("\x7d".toList ++ c :: cs), 7⟩) } :=
    symbol_apply "module" _ 0
  have hopen : symbol "\x7b" ⟨"\x7b".toList ++ ("\x7d".toList ++ c :: cs), 7⟩ =
      { result := some ((), ⟨"\x7d".toList ++ c :: cs, 8⟩) } := symbol_apply "\x7b" _ 7
  have hfunctions : many function ⟨"\x7d".toList ++ c :: cs, 8⟩ =
      { result := some ([], ⟨"\x7d".toList ++ c :: cs, 8⟩), failure := ⟨8, ["\"fn\""]⟩ } := rfl
  have hclose := symbol_apply "\x7d" (c :: cs) 8
  rw [skip_of_solid hc, hblank] at hclose
  rw [program, bind_apply_of_empty hstart, bind_apply_of_empty hmodule, bind_apply_of_empty hopen,
    bind_apply hfunctions, bind_apply_of_empty hclose]
  rfl

/-- The `text` behind a module decides alone whether there is an excerpt. -/
theorem load_behind_module {text : String} (htext : ∀ c ∈ text.toList.head?, isSolid c = true) :
    load ("module \x7b\x7d" ++ text) = .error .splitCharacter ↔ Splits text.toList := by
  rw [load_eq_splitCharacter_iff]
  cases hlist : text.toList with
  | nil =>
    have hempty : text = "" := String.toList_eq_nil_iff.1 hlist
    subst hempty
    refine iff_of_false (by decide +kernel) (not_splits_of_forall (by simp))
  | cons c cs =>
    have hprogram : program { rest := ("module \x7b\x7d" ++ text).toList } =
        { result := none, failure := ⟨9, ["end of input"]⟩ } := by
      rw [String.toList_append, hlist]
      exact program_behind_module (htext c (by rw [hlist]; rfl))
    have hdrop : ("module \x7b\x7d" ++ text).toList.drop 9 = c :: cs := by
      rw [String.toList_append, hlist]
      rfl
    rw [read, hprogram]
    simp only [Except.error.injEq, unexpectedAt_eq_splitCharacter_iff, hdrop]

/-- What becomes of a text.  It is given up without a message exactly if the grammar refuses it
and a character stands across the end of the twentieth byte behind the furthest failure, which is
always a position of the text.  Otherwise a text that is refused has a fault with the excerpt.
A text of one-byte characters is never given up.  Behind a module, a text that does not start with
a blank is given up exactly if a character of it stands across the end of its twentieth byte. -/
theorem load_outcomes (text : String) :
    (load text = .error .splitCharacter ↔
      ∃ failure, Refused text failure ∧ Splits (text.toList.drop failure.offset)) ∧
    (∀ failure, Refused text failure → failure.offset ≤ text.length ∧
      (Splits (text.toList.drop failure.offset) ∨
        ∃ found, Excerpts (text.toList.drop failure.offset) found.toList ∧
          load text = .error (.fault (.unexpected
            (lineAfter (text.toList.take failure.offset))
            (columnAfter (text.toList.take failure.offset))
            (failure.expected.mergeSort fun a b => decide (a ≤ b)) found)))) ∧
    ((∀ c ∈ text.toList, c.utf8Size = 1) →
      (∃ p, load text = .ok p) ∨ ∃ fault, load text = .error (.fault fault)) ∧
    ((∀ c ∈ text.toList.head?, isSolid c = true) →
      (load ("module \x7b\x7d" ++ text) = .error .splitCharacter ↔ Splits text.toList)) := by
  have hsplit : load text = .error .splitCharacter ↔
      ∃ failure, Refused text failure ∧ Splits (text.toList.drop failure.offset) := by
    rw [load_eq_splitCharacter_iff, read_eq_error_iff]
    simp only [unexpectedAt_eq_splitCharacter_iff]
  refine ⟨hsplit, fun failure hrefused => ⟨offset_le_of_refused hrefused, ?_⟩, fun hbytes => ?_,
    load_behind_module⟩
  · cases hexcerpt : excerpt (text.toList.drop failure.offset) with
    | none => exact Or.inl (excerpt_eq_none_iff.1 hexcerpt)
    | some found =>
      refine Or.inr ⟨found, excerpts_of_excerpt hexcerpt, ?_⟩
      refine load_eq_error_of_read (read_eq_error_iff.2 ⟨failure, hrefused, ?_⟩)
      rw [unexpectedAt, hexcerpt]
  · cases hload : load text with
    | ok p => exact Or.inl ⟨p, rfl⟩
    | error e =>
      cases e with
      | fault fault => exact Or.inr ⟨fault, rfl⟩
      | splitCharacter =>
        obtain ⟨failure, -, hsplits⟩ := hsplit.1 hload
        refine absurd hsplits (not_splits_of_forall fun c hc => ?_)
        exact hbytes c (List.mem_of_mem_drop hc)

/-- A word in a comment is enough: its umlaut takes the twentieth byte and the next one. -/
theorem load_umlaut_outcome : load "fn f() -> bool //gr\u00fcn" = .error .splitCharacter ∧
    ∃ failure, Refused "fn f() -> bool //gr\u00fcn" failure ∧
      Splits ("fn f() -> bool //gr\u00fcn".toList.drop failure.offset) := by
  have hload : load "fn f() -> bool //gr\u00fcn" = .error .splitCharacter := by decide +kernel
  exact ⟨hload, (load_outcomes "fn f() -> bool //gr\u00fcn").1.1 hload⟩

end FlowFacts.Source
