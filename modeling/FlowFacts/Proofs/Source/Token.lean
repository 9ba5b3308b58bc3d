import FlowFacts.Source.Grammar
import FlowFacts.Proofs.Source.Rule

/-!
# Tokens

What the rules for tokens read.  A token is followed by blanks and comments, which its rule
takes too, so after a token the characters left are `skip cs`, where `cs` stands right behind
it.  A word has to end where it ends: behind it there is no character of a name (`Ends`).

## Main definitions

* `Grammar.skip` — what is left after blanks and comments.
* `Grammar.Ends` — a word may end here.
* `Grammar.IsName` — the names of program texts.

## Main results

* `reads_name`, `reads_symbol`, `reads_keyword`, `reads_ty` — words and symbols.
* `fails_keyword` — another word is not taken for a keyword.
-/

namespace FlowFacts.Source.Grammar

open Rule

variable {cs : List Char} {c : Char} {s : String} {w : List Char}

/-! ### Blanks -/

/-- What is left of `cs` after blanks and comments. -/
def skip (cs : List Char) : List Char := cs.drop (blankLength false cs)

theorem reads_blank (cs : List Char) : blank.Reads cs () (skip cs) :=
  fun offset => ⟨offset + blankLength false cs, rfl⟩

@[simp] theorem skip_nil : skip [] = [] := rfl

@[simp] theorem skip_space (cs : List Char) : skip (' ' :: cs) = skip cs := by
  simp [skip, blankLength, Nat.add_comm 1]

@[simp] theorem skip_newline (cs : List Char) : skip ('\n' :: cs) = skip cs := by
  simp [skip, blankLength, Nat.add_comm 1]

/-- Characters that blanks and comments do not start with. -/
def isSolid (c : Char) : Bool := !(c == ' ' || c == '\t' || c == '\n' || c == '\r' || c == '/')

theorem skip_of_solid (h : isSolid c = true) : skip (c :: cs) = c :: cs := by
  simp only [isSolid, Bool.not_eq_true', Bool.or_eq_false_iff, beq_eq_false_iff_ne] at h
  simp [skip, blankLength, h]

theorem skip_replicate_space (n : Nat) (cs : List Char) :
    skip (List.replicate n ' ' ++ cs) = skip cs := by
  induction n with
  | zero => rfl
  | succ n ih => rw [List.replicate_succ, List.cons_append, skip_space, ih]

/-! ### Symbols -/

theorem reads_symbol (s : String) (cs : List Char) :
    (symbol s).Reads (s.toList ++ cs) () (skip cs) :=
  (reads_literal s cs).bind (reads_blank cs)

/-- A symbol of one character, `c`. -/
theorem reads_char {s : String} {c : Char} (h : s.toList = [c]) (cs : List Char) :
    (symbol s).Reads (c :: cs) () (skip cs) := by
  have hreads := reads_symbol s cs
  rwa [h] at hreads

theorem fails_symbol (h : ¬ s.toList <+: cs) : (symbol s).Fails cs := (fails_literal h).bind

theorem reads_comma (cs : List Char) : comma.Reads (',' :: cs) () (skip cs) :=
  (reads_symbol "," cs).quiet

theorem fails_comma (h : c ≠ ',') : comma.Fails (c :: cs) := by
  refine (fails_symbol ?_).quiet
  rintro ⟨t, ht⟩
  simp at ht
  exact h ht.1.symm

/-! ### Words -/

/-- A word may end before `cs`: no character of a name comes first. -/
def Ends (cs : List Char) : Prop := ∀ c ∈ cs.head?, isNameChar c = false

theorem ends_cons : Ends (c :: cs) ↔ isNameChar c = false := by simp [Ends]

/-- A name of a program text: a word `s` that is not the name of a type. -/
structure IsName (s : String) : Prop where
  /-- It starts with a letter or underscore, and goes on with these and digits. -/
  word : ∃ first others, s.toList = first :: others ∧ isNameStart first = true ∧
    ∀ c ∈ others, isNameChar c = true
  /-- It is not the name of a type. -/
  not_type : s ≠ "bool" ∧ s ≠ "u64" ∧ s ≠ "str"

theorem isNameChar_of_isNameStart (h : isNameStart c = true) : isNameChar c = true := by
  simp [isNameChar, h]

/-- All characters of `w` may stand in names. -/
def IsWord (w : List Char) : Prop := w.all isNameChar = true

instance (w : List Char) : Decidable (IsWord w) := inferInstanceAs (Decidable (_ = true))

theorem isWord_iff : IsWord w ↔ ∀ c ∈ w, isNameChar c = true := List.all_eq_true

/-- Whether `s` is a name can be computed. -/
theorem isName_iff : IsName s ↔ (s.toList.head?.any isNameStart = true ∧ IsWord s.toList.tail) ∧
    s ≠ "bool" ∧ s ≠ "u64" ∧ s ≠ "str" := by
  constructor
  · rintro ⟨⟨first, others, hs, hfirst, hothers⟩, hne⟩
    rw [hs]
    exact ⟨⟨hfirst, isWord_iff.2 hothers⟩, hne⟩
  · rintro ⟨⟨hfirst, hothers⟩, hne⟩
    cases hs : s.toList with
    | nil => simp [hs] at hfirst
    | cons first others =>
      rw [hs] at hfirst hothers
      exact ⟨⟨first, others, hs, hfirst, isWord_iff.1 hothers⟩, hne⟩

instance (s : String) : Decidable (IsName s) := decidable_of_iff' _ isName_iff

theorem IsName.isWord (h : IsName s) : IsWord s.toList := by
  obtain ⟨first, others, hs, hfirst, hothers⟩ := h.word
  rw [isWord_iff, hs, List.forall_mem_cons]
  exact ⟨isNameChar_of_isNameStart hfirst, hothers⟩

theorem isSolid_of_isNameChar (h : isNameChar c = true) : isSolid c = true := by
  by_contra hsolid
  simp only [isSolid, Bool.not_eq_true', Bool.not_eq_false, Bool.or_eq_true, beq_iff_eq] at hsolid
  obtain (((rfl | rfl) | rfl) | rfl) | rfl := hsolid <;> revert h <;> decide

theorem IsName.skip (h : IsName s) (cs : List Char) : skip (s.toList ++ cs) = s.toList ++ cs := by
  obtain ⟨first, others, hs, hfirst, -⟩ := h.word
  rw [hs, List.cons_append,
    skip_of_solid (isSolid_of_isNameChar (isNameChar_of_isNameStart hfirst))]

/-- A word `k` that starts a longer text starts its first word, `w`. -/
theorem prefix_of_ends {k w : List Char} (hk : IsWord k) (hcs : Ends cs)
    (h : k <+: w ++ cs) : k <+: w := by
  induction k generalizing w with
  | nil => exact List.nil_prefix
  | cons c k ih =>
    rw [isWord_iff, List.forall_mem_cons, ← isWord_iff] at hk
    cases w with
    | nil =>
      obtain ⟨t, ht⟩ := h
      have hc : isNameChar c = false := hcs c (by rw [List.nil_append] at ht; simp [← ht])
      rw [hk.1] at hc
      cases hc
    | cons d w =>
      rw [List.cons_append, List.cons_prefix_cons] at h
      exact List.cons_prefix_cons.2 ⟨h.1, ih hk.2 h.2⟩

theorem reads_nameChar (h : isNameChar c = true) : nameChar.Reads (c :: cs) c cs :=
  (reads_oneOf h).quiet

theorem fails_nameChar (h : Ends cs) : nameChar.Fails cs := (fails_oneOf h).quiet

/-- A text that starts with the word `w` does not start with the word `k`, or `k` goes on there. -/
theorem starts_word {k : String} (hk : IsWord k.toList) (hw : IsWord w) (hcs : Ends cs)
    (hne : w ≠ k.toList) :
    ¬ k.toList <+: w ++ cs ∨ ∃ c t, w ++ cs = k.toList ++ c :: t ∧ isNameChar c = true := by
  by_cases hprefix : k.toList <+: w
  · obtain ⟨t, rfl⟩ := hprefix
    cases t with
    | nil => simp at hne
    | cons c t => exact Or.inr ⟨c, t ++ cs, by simp, isWord_iff.1 hw c (by simp)⟩
  · exact Or.inl fun h => hprefix (prefix_of_ends hk hcs h)

theorem reads_keyword (k : String) (h : Ends cs) :
    (keyword k).Reads (k.toList ++ cs) () (skip cs) :=
  (reads_literal k cs).bind ((fails_nameChar h).notAhead.bind (reads_blank cs))

theorem fails_keyword {k : String} (hk : IsWord k.toList) (hw : IsWord w) (hcs : Ends cs)
    (hne : w ≠ k.toList) : (keyword k).Fails (w ++ cs) := by
  rcases starts_word hk hw hcs hne with h | ⟨c, t, htext, hc⟩
  · exact (fails_literal h).bind
  · rw [htext]
    exact (reads_literal k _).bind_fails (reads_nameChar hc).notAhead.bind

/-- A word `w` is not read as one of the other words `ks`, not even as one that it starts with. -/
theorem fails_words (hw : IsWord w) (hcs : Ends cs) (ks : List String)
    (hks : ∀ k ∈ ks, IsWord k.toList ∧ w ≠ k.toList) :
    (do choice (ks.map literal); notAhead nameChar).Fails (w ++ cs) := by
  refine fails_choice_bind fun r hr => ?_
  obtain ⟨k, hk, rfl⟩ := List.mem_map.1 hr
  rcases starts_word (hks k hk).1 hw hcs (hks k hk).2 with h | ⟨c, t, htext, hc⟩
  · exact (fails_literal h).bind
  · rw [htext]
    exact (reads_literal k _).bind_fails (reads_nameChar hc).notAhead

theorem reads_name (h : IsName s) (hcs : Ends cs) : name.Reads (s.toList ++ cs) s (skip cs) := by
  -- it is not the name of a type, which would not be read as a name
  have htype := fails_words h.isWord hcs ["bool", "u64", "str"] (by
    have hne : ∀ k : String, s ≠ k → s.toList ≠ k.toList := fun k hk heq =>
      hk (String.toList_inj.1 heq)
    obtain ⟨h₁, h₂, h₃⟩ := h.not_type
    simp only [List.forall_mem_cons]
    exact ⟨⟨by decide, hne _ h₁⟩, ⟨by decide, hne _ h₂⟩, ⟨by decide, hne _ h₃⟩, by simp⟩)
  obtain ⟨first, others, hs, hfirst, hothers⟩ := h.word
  refine htype.notAhead.bind ?_
  rw [hs, List.cons_append]
  refine (reads_oneOf hfirst).quiet.bind ((reads_takeWhile hothers hcs).bind
    ((reads_blank cs).bind ?_))
  rw [← hs, String.ofList_toList]
  exact reads_pure _ _

theorem fails_name (h : ∀ c ∈ cs.head?, isNameStart c = false) : name.Fails cs :=
  (fails_oneOf h).quiet.bind.after_notAhead

theorem fails_name_cons (h : isNameStart c = false) : name.Fails (c :: cs) :=
  fails_name (by simpa using h)

/-! ### Types -/

theorem reads_ty (t : Ty) (h : Ends cs) : ty.Reads (t.text.toList ++ cs) t (skip cs) := by
  -- types are tried in order, so those before have to fail
  have hunit : ∀ {cs : List Char}, ¬ "unit".toList <+: cs → ¬ "()".toList <+: cs →
      (do choice [literal "unit", literal "()"]; blank; return Ty.unit).Fails cs :=
    fun h₁ h₂ => (fails_choice (by
      simp only [List.forall_mem_cons]
      exact ⟨fails_literal h₁, fails_literal h₂, by simp⟩)).bind
  have hkeyword : ∀ {cs : List Char} {k : String} (t : Ty), ¬ k.toList <+: cs →
      (do keyword k; return t).Fails cs := fun _ h => (fails_literal h).bind.bind
  cases t with
  | unit =>
    refine reads_choice_head ((reads_choice_tail (fails_literal (by simp))
      (reads_choice_head (reads_literal "()" cs))).bind ((reads_blank cs).bind (reads_pure _ _)))
  | bool =>
    refine reads_choice_tail (hunit (by simp [Ty.text]) (by simp [Ty.text])) ?_
    exact reads_choice_head ((reads_keyword "bool" h).bind (reads_pure _ _))
  | u64 =>
    refine reads_choice_tail (hunit (by simp [Ty.text]) (by simp [Ty.text])) ?_
    refine reads_choice_tail (hkeyword _ (by simp [Ty.text])) ?_
    exact reads_choice_head ((reads_keyword "u64" h).bind (reads_pure _ _))
  | str =>
    refine reads_choice_tail (hunit (by simp [Ty.text]) (by simp [Ty.text])) ?_
    refine reads_choice_tail (hkeyword _ (by simp [Ty.text])) ?_
    refine reads_choice_tail (hkeyword _ (by simp [Ty.text])) ?_
    exact reads_choice_head ((reads_keyword "str" h).bind (reads_pure _ _))

theorem skip_tyText (t : Ty) (cs : List Char) :
    skip (t.text.toList ++ cs) = t.text.toList ++ cs := by
  cases t <;> exact skip_of_solid (by decide)

/-! ### Numbers -/

theorem isNameChar_of_isDigit (h : c.isDigit = true) : isNameChar c = true := by
  simp only [Char.isDigit, Bool.and_eq_true, decide_eq_true_eq] at h
  simp only [isNameChar, Bool.or_eq_true, Bool.and_eq_true, decide_eq_true_eq]
  exact Or.inr h

/-- Digits `ds` are read until a word ends. -/
theorem readsAll_digit {ds : List Char} (hds : ∀ c ∈ ds, c.isDigit = true) (hcs : Ends cs) :
    ReadsAll digit (ds ++ cs) ds cs := by
  induction ds with
  | nil =>
    refine .nil (fails_oneOf fun c hc => ?_)
    have hend := hcs c hc
    simp only [isNameChar, Bool.or_eq_false_iff] at hend
    exact hend.2
  | cons d ds ih =>
    rw [List.forall_mem_cons] at hds
    have hd := hds.1
    simp only [Char.isDigit, Bool.and_eq_true, decide_eq_true_eq] at hd
    have hd : '0' ≤ d ∧ d ≤ '9' := hd
    exact .cons (reads_oneOf (by simp [hd])) (by simp) (ih hds.2)

/-- A number `n` starts with a zero only if it is zero. -/
theorem exists_toDigits {n : Nat} (hn : n ≠ 0) : ∃ d ds, Nat.toDigits 10 n = d :: ds ∧
    ('1' ≤ d ∧ d ≤ '9') := by
  induction n using Nat.strongRecOn with
  | ind n ih =>
    rw [Nat.toDigits_eq_if (by omega)]
    split
    · next hlt =>
      -- one digit is left
      refine ⟨n.digitChar, [], rfl, ?_⟩
      have hn' : n = 1 ∨ n = 2 ∨ n = 3 ∨ n = 4 ∨ n = 5 ∨ n = 6 ∨ n = 7 ∨ n = 8 ∨ n = 9 := by omega
      rcases hn' with rfl | rfl | rfl | rfl | rfl | rfl | rfl | rfl | rfl <;> decide
    · next hge =>
      obtain ⟨d, ds, hds, hd⟩ := ih (n / 10) (by omega) (by omega)
      exact ⟨d, ds ++ [(n % 10).digitChar], by rw [hds, List.cons_append], hd⟩

theorem digitsValue_toDigits (n : Nat) : digitsValue (Nat.toDigits 10 n) = n := by
  exact Nat.ofDigitChars_ten_toDigits

theorem reads_digits (n : Nat) (h : Ends cs) :
    digits.Reads (Nat.toDigits 10 n ++ cs) (Nat.toDigits 10 n) cs := by
  by_cases hn : n = 0
  · subst hn
    rw [Nat.toDigits_zero]
    exact reads_choice_head ((reads_literal "0" cs).bind (reads_pure _ _))
  · obtain ⟨d, ds, hds, hd⟩ := exists_toDigits hn
    have hdigits : ∀ c ∈ ds, c.isDigit = true := fun c hc =>
      Nat.isDigit_of_mem_toDigits (b := 10) (n := n) (by omega) (by omega) (by simp [hds, hc])
    rw [hds, List.cons_append]
    refine reads_choice_tail (Fails.bind (fails_literal ?_)) (reads_choice_head ?_)
    · -- the first digit is no zero
      rintro ⟨t, ht⟩
      have hzero : '0' = d := by simpa using congrArg List.head? ht
      subst hzero
      exact absurd hd.1 (by decide)
    · refine (reads_oneOf (by simpa using hd)).bind ((readsAll_digit hdigits h).many.bind ?_)
      exact reads_pure _ _

theorem reads_word (n : UInt64) (h : Ends cs) :
    word.Reads ((toString n.toNat).toList ++ cs) n (skip cs) := by
  rw [show toString n.toNat = n.toNat.repr from rfl, Nat.toList_repr]
  refine (reads_digits n.toNat h).bind ((reads_blank cs).bind ?_)
  rw [digitsValue_toDigits, if_pos (UInt64.toNat_lt n), UInt64.ofNat_toNat]
  exact reads_pure _ _

/-! ### Strings -/

theorem reads_hexDigit {n : Nat} (h : n < 16) :
    hexDigit.Reads (FlowFacts.hexDigit n :: cs) n cs := by
  by_cases hn : n < 10
  · have hlow : ∀ n < 10, ('0' ≤ FlowFacts.hexDigit n && FlowFacts.hexDigit n ≤ '9') = true ∧
        (FlowFacts.hexDigit n).toNat - 48 = n := by decide
    exact reads_choice_head ((reads_oneOf (hlow n hn).1).map (hlow n hn).2)
  · have hhigh : ∀ n < 16, ¬ n < 10 →
        ('0' ≤ FlowFacts.hexDigit n && FlowFacts.hexDigit n ≤ '9') = false ∧
        (('a' ≤ FlowFacts.hexDigit n && FlowFacts.hexDigit n ≤ 'f') ||
          ('A' ≤ FlowFacts.hexDigit n && FlowFacts.hexDigit n ≤ 'F')) = true ∧
        (FlowFacts.hexDigit n).toLower.toNat - 87 = n := by decide
    obtain ⟨hdigit, hletter, hvalue⟩ := hhigh n h hn
    exact reads_choice_tail (fails_oneOf_cons hdigit).bind
      (reads_choice_head ((reads_oneOf hletter).map hvalue))

/-- Bytes `n` that stand for themselves in a string. -/
theorem plain_byte : ∀ n < 256, 32 ≤ n ∧ n < 127 ∧ n ≠ 34 ∧ n ≠ 92 →
    (Char.ofNat n == ' ' || Char.ofNat n == '!' || ('#' ≤ Char.ofNat n && Char.ofNat n ≤ '[') ||
      (']' ≤ Char.ofNat n && Char.ofNat n ≤ '~')) = true ∧ (Char.ofNat n).toNat = n := by
  decide +kernel

theorem reads_stringByte (b : UInt8) : stringByte.Reads (byteText b ++ cs) b cs := by
  have hlt : b.toNat < 256 := b.toNat_lt
  unfold byteText
  by_cases hplain : 32 ≤ b.toNat ∧ b.toNat < 127 ∧ b.toNat ≠ 34 ∧ b.toNat ≠ 92
  · obtain ⟨hok, hvalue⟩ := plain_byte b.toNat hlt hplain
    rw [if_pos hplain]
    refine reads_choice_head ((reads_oneOf hok).map ?_)
    rw [hvalue, UInt8.ofNat_toNat]
  · rw [if_neg hplain]
    refine reads_choice_tail (fails_oneOf_cons (by decide)).bind (reads_choice_head ?_)
    refine (reads_literal "\\x" _).bind ((reads_hexDigit (by omega)).bind ?_)
    refine (reads_hexDigit (Nat.mod_lt _ (by omega))).map ?_
    rw [Nat.div_add_mod, UInt8.ofNat_toNat]

theorem readsAll_stringByte (bytes : List UInt8) (cs : List Char) :
    ReadsAll stringByte (bytes.flatMap byteText ++ '"' :: cs) bytes ('"' :: cs) := by
  induction bytes with
  | nil =>
    refine .nil (fails_choice ?_)
    simp only [List.forall_mem_cons]
    exact ⟨(fails_oneOf_cons (by decide)).bind, (fails_literal (by simp)).bind, by simp⟩
  | cons b bytes ih =>
    rw [List.flatMap_cons, List.append_assoc]
    refine .cons (reads_stringByte b) ?_ ih
    have hpos : 0 < (byteText b).length := by
      simp only [byteText]
      split <;> simp
    simp only [List.length_append]
    omega

/-! ### Constants -/

/-- The value of a constant, as a program text writes it after the type. -/
def valueText : Constant → List Char
  | .unit => "()".toList
  | .bool true => "true".toList
  | .bool false => "false".toList
  | .u64 n => (toString n.toNat).toList
  | .str bytes => '"' :: (bytes.flatMap byteText ++ ['"'])

theorem toList_text (c : Constant) : c.text.toList = c.ty.text.toList ++ ' ' :: valueText c := by
  cases c with
  | unit => rfl
  | bool b => cases b <;> rfl
  | u64 n | str bytes => simp [Constant.text, valueText, Constant.ty, Ty.text, String.toList_append]

theorem exists_valueText_u64 (n : UInt64) :
    ∃ d ds, valueText (.u64 n) = d :: ds ∧ d.isDigit = true := by
  obtain ⟨d, ds, hds⟩ := List.exists_cons_of_ne_nil (Nat.toDigits_ne_nil (n := n.toNat) (b := 10))
  refine ⟨d, ds, ?_, ?_⟩
  · rw [← hds, ← Nat.toList_repr]
    rfl
  · exact Nat.isDigit_of_mem_toDigits (b := 10) (n := n.toNat) (by omega) (by omega)
      (by rw [hds]; exact List.mem_cons_self)

theorem reads_constant (c : Constant) (h : Ends cs) :
    constant.Reads (valueText c ++ cs) c (skip cs) := by
  have hsymbol : ∀ {cs : List Char} {s : String} (c : Constant), ¬ s.toList <+: cs →
      (do symbol s; return c).Fails cs := fun _ h => (fails_symbol h).bind
  cases c with
  | unit => exact reads_choice_head ((reads_symbol "()" cs).bind (reads_pure _ _))
  | bool b =>
    cases b with
    | true =>
      refine reads_choice_tail (hsymbol _ (by simp [valueText])) ?_
      exact reads_choice_head ((reads_symbol "true" cs).bind (reads_pure _ _))
    | false =>
      refine reads_choice_tail (hsymbol _ (by simp [valueText])) ?_
      refine reads_choice_tail (hsymbol _ (by simp [valueText])) ?_
      exact reads_choice_head ((reads_symbol "false" cs).bind (reads_pure _ _))
  | u64 n =>
    obtain ⟨d, ds, htext, hd⟩ := exists_valueText_u64 n
    -- the other constants do not start with a digit
    have hother : ∀ (s : String) (c : Constant), s.toList.head?.any Char.isDigit = false →
        s ≠ "" → (do symbol s; return c).Fails (valueText (.u64 n) ++ cs) := by
      intro s c hs hne
      refine hsymbol c ?_
      rw [htext]
      rintro ⟨t, ht⟩
      cases hlist : s.toList with
      | nil => exact hne (String.toList_eq_nil_iff.1 hlist)
      | cons e es =>
        rw [hlist, List.cons_append, List.cons_append, List.cons.injEq] at ht
        rw [hlist, List.head?_cons, Option.any_some, ht.1, hd] at hs
        cases hs
    refine reads_choice_tail (hother _ _ (by decide) (by decide)) ?_
    refine reads_choice_tail (hother _ _ (by decide) (by decide)) ?_
    refine reads_choice_tail (hother _ _ (by decide) (by decide)) ?_
    exact reads_choice_head ((reads_word n h).map rfl)
  | str bytes =>
    refine reads_choice_tail (hsymbol _ (by simp [valueText])) ?_
    refine reads_choice_tail (hsymbol _ (by simp [valueText])) ?_
    refine reads_choice_tail (hsymbol _ (by simp [valueText])) ?_
    have hword : word.Fails (valueText (.str bytes) ++ cs) := by
      refine Fails.bind (fails_choice ?_)
      simp only [List.forall_mem_cons]
      refine ⟨(fails_literal (by simp [valueText])).bind, ?_, by simp⟩
      exact (fails_oneOf_cons (by decide)).bind
    refine reads_choice_tail hword.bind (reads_choice_head ?_)
    rw [valueText, List.cons_append, List.append_assoc]
    refine (reads_oneOf (by decide)).bind ((readsAll_stringByte bytes _).many.bind ?_)
    exact (reads_oneOf (by decide)).bind ((reads_blank cs).bind (reads_pure _ _))

theorem skip_valueText (c : Constant) (cs : List Char) :
    skip (valueText c ++ cs) = valueText c ++ cs := by
  cases c with
  | unit => exact skip_of_solid (by decide)
  | bool b => cases b <;> exact skip_of_solid (by decide)
  | u64 n =>
    obtain ⟨d, ds, htext, hd⟩ := exists_valueText_u64 n
    rw [htext, List.cons_append,
      skip_of_solid (isSolid_of_isNameChar (isNameChar_of_isDigit hd))]
  | str bytes => exact skip_of_solid (by decide)

end FlowFacts.Source.Grammar
