import FlowFacts.Proofs.Flow.Operations

/-!
# Texts identify formulas

Formulas are told apart by their texts.  There are two sides to this.  A text can be read in one
way only: a formula in characters, followed by something that is not another digit, shows where it
ends and what it is.  And a table holds every formula once, so formulas that are written out alike
have the same entry at every level, and are at the same position.

## Main definitions

* `Connective` — the connectives that are written between their operands.
* `Expr.Readable` — a formula can be read off the characters that begin with it.
* `Node.written` — an entry in characters, over the texts of its operands.

## Main results

* `Expr.readable` — every formula can be.
* `FormulaTable.WellFormed.eq_of_expr_eq` — formulas that are written out alike are the same.
* `text_identifies` — formulas of a table have the same text exactly if they are the same.
-/

namespace FlowFacts

/-! ### Connectives -/

/-- The connectives that are written between their operands. -/
inductive Connective where
  /-- Conjunction. -/
  | and
  /-- Disjunction. -/
  | or
  /-- Implication. -/
  | implies
  /-- Equivalence. -/
  | equals

namespace Connective

/-- The connective of two formulas. -/
def apply : Connective → Expr → Expr → Expr
  | and => .and
  | or => .or
  | implies => .implies
  | equals => .equals

/-- What is written between the operands. -/
def sign : Connective → List Char
  | and => [' ', '&', ' ']
  | or => [' ', '|', ' ']
  | implies => [' ', '=', '>', ' ']
  | equals => [' ', '=', ' ']

/-- No sign `k` begins with another one. -/
theorem sign_append_inj {k k' : Connective} {cs cs' : List Char}
    (h : k.sign ++ cs = k'.sign ++ cs') : k = k' ∧ cs = cs' := by
  cases k <;> cases k' <;> simp_all [sign]

end Connective

/-! ### Numbers -/

/-- The characters `cs` do not continue a number. -/
def StopsNumber (cs : List Char) : Prop := ∀ c ∈ cs.head?, c.isDigit = false

theorem stopsNumber_cons {c : Char} {cs : List Char} (hc : c.isDigit = false) :
    StopsNumber (c :: cs) := by
  intro d hd
  rwa [← Option.some.inj hd]

theorem Connective.stopsNumber_sign (k : Connective) (cs : List Char) :
    StopsNumber (k.sign ++ cs) := by
  cases k <;> exact stopsNumber_cons rfl

theorem takeWhile_toDigits_append {cs : List Char} (hcs : StopsNumber cs) (n : Nat) :
    (Nat.toDigits 10 n ++ cs).takeWhile Char.isDigit = Nat.toDigits 10 n := by
  have hdigits : ∀ c ∈ Nat.toDigits 10 n, c.isDigit = true := fun c hc =>
    Nat.isDigit_of_mem_toDigits (by omega) (by omega) hc
  have hstop : cs.takeWhile Char.isDigit = [] := by
    cases cs with
    | nil => rfl
    | cons c cs => rw [List.takeWhile_cons, hcs c rfl, if_neg Bool.false_ne_true]
  rw [List.takeWhile_append_of_pos hdigits, hstop, List.append_nil]

/-- The number `m` in front of `cs` shows where it ends and what it is. -/
theorem toDigits_append_inj {m n : Nat} {cs cs' : List Char} (hcs : StopsNumber cs)
    (hcs' : StopsNumber cs') (h : Nat.toDigits 10 m ++ cs = Nat.toDigits 10 n ++ cs') :
    m = n ∧ cs = cs' := by
  have hdigits : Nat.toDigits 10 m = Nat.toDigits 10 n := by
    rw [← takeWhile_toDigits_append hcs m, h, takeWhile_toDigits_append hcs' n]
  constructor
  · calc
      m = Nat.ofDigitChars 10 (Nat.toDigits 10 m) 0 := Nat.ofDigitChars_ten_toDigits.symm
      _ = Nat.ofDigitChars 10 (Nat.toDigits 10 n) 0 := by rw [hdigits]
      _ = n := Nat.ofDigitChars_ten_toDigits
  · rw [hdigits] at h
    exact List.append_cancel_left h

/-! ### Formulas in characters -/

namespace Expr

variable {x y : Expr}

theorem toList_text_atom (a : Atom) : (atom a).text.toList = 'A' :: Nat.toDigits 10 a.index := by
  change ("A" ++ a.index.repr).toList = _
  rw [String.toList_append, Nat.toList_repr]
  rfl

theorem toList_text_literal (b : Bool) : (literal b).text.toList =
    bif b then ['t', 'r', 'u', 'e'] else ['f', 'a', 'l', 's', 'e'] := by
  cases b <;> rfl

theorem toList_text_not (x : Expr) : (not x).text.toList = '!' :: x.text.toList := by
  change ("!" ++ x.text).toList = _
  rw [String.toList_append]
  rfl

theorem toList_text_apply (k : Connective) (x y : Expr) : (k.apply x y).text.toList =
    '(' :: (x.text.toList ++ (k.sign ++ (y.text.toList ++ [')']))) := by
  have hjoined : ∀ s : String, ("(" ++ x.text ++ s ++ y.text ++ ")").toList =
      '(' :: (x.text.toList ++ (s.toList ++ (y.text.toList ++ [')']))) := by
    intro s
    simp
  cases k with
  | and => exact hjoined " & "
  | or => exact hjoined " | "
  | implies => exact hjoined " => "
  | equals => exact hjoined " = "

/-- The ways in which a formula `x` is made. -/
theorem shape (x : Expr) : (∃ a, x = atom a) ∨ (∃ b, x = literal b) ∨ (∃ y, x = not y) ∨
    ∃ (k : Connective) (y z : Expr), x = k.apply y z := by
  cases x with
  | atom a => exact Or.inl ⟨a, rfl⟩
  | literal b => exact Or.inr (Or.inl ⟨b, rfl⟩)
  | not y => exact Or.inr (Or.inr (Or.inl ⟨y, rfl⟩))
  | and y z => exact Or.inr (Or.inr (Or.inr ⟨.and, y, z, rfl⟩))
  | or y z => exact Or.inr (Or.inr (Or.inr ⟨.or, y, z, rfl⟩))
  | implies y z => exact Or.inr (Or.inr (Or.inr ⟨.implies, y, z, rfl⟩))
  | equals y z => exact Or.inr (Or.inr (Or.inr ⟨.equals, y, z, rfl⟩))

/-- The formula `x` can be read off characters that begin with it, and so can be where it ends. -/
def Readable (x : Expr) : Prop := ∀ (y : Expr) (cs cs' : List Char), StopsNumber cs →
  StopsNumber cs' → x.text.toList ++ cs = y.text.toList ++ cs' → x = y ∧ cs = cs'

theorem readable_atom (a : Atom) : (atom a).Readable := by
  intro y cs cs' hcs hcs' h
  obtain ⟨b, rfl⟩ | ⟨b, rfl⟩ | ⟨z, rfl⟩ | ⟨k, z, w, rfl⟩ := y.shape
  · rw [toList_text_atom, toList_text_atom, List.cons_append, List.cons_append] at h
    obtain ⟨hindex, hrest⟩ := toDigits_append_inj hcs hcs' (List.cons.inj h).2
    cases a
    cases b
    exact ⟨congrArg (atom ⟨·⟩) hindex, hrest⟩
  · cases b <;> simp [toList_text_atom, toList_text_literal] at h
  · simp [toList_text_atom, toList_text_not] at h
  · simp [toList_text_atom, toList_text_apply] at h

theorem readable_literal (b : Bool) : (literal b).Readable := by
  intro y cs cs' _ _ h
  obtain ⟨a, rfl⟩ | ⟨b', rfl⟩ | ⟨z, rfl⟩ | ⟨k, z, w, rfl⟩ := y.shape
  · cases b <;> simp [toList_text_literal, toList_text_atom] at h
  · cases b <;> cases b' <;> simp_all [toList_text_literal]
  · cases b <;> simp [toList_text_literal, toList_text_not] at h
  · cases b <;> simp [toList_text_literal, toList_text_apply] at h

theorem Readable.not (hx : x.Readable) : (not x).Readable := by
  intro y cs cs' hcs hcs' h
  obtain ⟨a, rfl⟩ | ⟨b, rfl⟩ | ⟨z, rfl⟩ | ⟨k, z, w, rfl⟩ := y.shape
  · simp [toList_text_atom, toList_text_not] at h
  · cases b <;> simp [toList_text_literal, toList_text_not] at h
  · rw [toList_text_not, toList_text_not, List.cons_append, List.cons_append] at h
    obtain ⟨rfl, hrest⟩ := hx z cs cs' hcs hcs' (List.cons.inj h).2
    exact ⟨rfl, hrest⟩
  · simp [toList_text_not, toList_text_apply] at h

/-- The operands `x` and `y` are read one after the other, and the sign between them. -/
theorem Readable.apply (hx : x.Readable) (hy : y.Readable) (k : Connective) :
    (k.apply x y).Readable := by
  intro z cs cs' hcs hcs' h
  obtain ⟨a, rfl⟩ | ⟨b, rfl⟩ | ⟨w, rfl⟩ | ⟨k', x', y', rfl⟩ := z.shape
  · simp [toList_text_atom, toList_text_apply] at h
  · cases b <;> simp [toList_text_literal, toList_text_apply] at h
  · simp [toList_text_not, toList_text_apply] at h
  · simp only [toList_text_apply, List.cons_append, List.append_assoc, List.nil_append] at h
    obtain ⟨rfl, hsign⟩ :=
      hx x' _ _ (k.stopsNumber_sign _) (k'.stopsNumber_sign _) (List.cons.inj h).2
    obtain ⟨rfl, hsecond⟩ := Connective.sign_append_inj hsign
    obtain ⟨rfl, hclose⟩ := hy y' _ _ (stopsNumber_cons rfl) (stopsNumber_cons rfl) hsecond
    exact ⟨rfl, (List.cons.inj hclose).2⟩

/-- Every formula `x` can be read in one way only. -/
theorem readable (x : Expr) : x.Readable := by
  induction x with
  | atom a => exact readable_atom a
  | literal b => exact readable_literal b
  | not x ih => exact ih.not
  | and x y ihx ihy => exact ihx.apply ihy .and
  | or x y ihx ihy => exact ihx.apply ihy .or
  | implies x y ihx ihy => exact ihx.apply ihy .implies
  | equals x y ihx ihy => exact ihx.apply ihy .equals

theorem text_injective (h : x.text = y.text) : x = y := by
  have hstop : StopsNumber [] := fun c hc => absurd hc (by simp)
  exact (x.readable y [] [] hstop hstop (by rw [h])).1

end Expr

/-! ### Formulas of tables -/

/-- An entry in characters, if `g` gives its operands in characters. -/
def Node.written (g : Formula → String) : Node → String
  | .atom a => "A" ++ toString a.index
  | .literal b => if b then "true" else "false"
  | .not x => "!" ++ g x
  | .and x y => "(" ++ g x ++ " & " ++ g y ++ ")"
  | .or x y => "(" ++ g x ++ " | " ++ g y ++ ")"
  | .implies x y => "(" ++ g x ++ " => " ++ g y ++ ")"
  | .equals x y => "(" ++ g x ++ " = " ++ g y ++ ")"

theorem Node.text_expand (g : Formula → Expr) (n : Node) :
    (n.expand g).text = n.written fun x => (g x).text := by
  cases n with
  | literal b => cases b <;> rfl
  | _ => rfl

/-- Entries `n` and `m` that are written out alike are the same if this is true of their
operands. -/
theorem Node.eq_of_expand_eq {g : Formula → Expr} {n m : Node} (h : n.expand g = m.expand g)
    (hchildren : ∀ x ∈ n.children, ∀ y ∈ m.children, g x = g y → x = y) : n = m := by
  cases n <;> cases m <;> simp_all [expand, children]

namespace FormulaTable

variable {t : FormulaTable}

/-- The text of `f` is made of the texts of its operands. -/
theorem WellFormed.text_eq (ht : t.WellFormed) (f : Formula) :
    t.text f = (t.node f).written t.text := by
  rw [text, expr_eq ht, Node.text_expand]
  rfl

/-- Formulas of `t` that are written out alike are the same: their operands are, by induction on
the position, and an entry stands once. -/
theorem WellFormed.eq_of_expr_eq (ht : t.WellFormed) : ∀ {x y : Formula}, t.Has x → t.Has y →
    t.expr x = t.expr y → x = y := by
  intro x
  induction hi : x.index using Nat.strong_induction_on generalizing x with
  | _ i ih =>
    intro y hx hy h
    rw [expr_eq ht, expr_eq ht] at h
    have hnode : t.node x = t.node y := by
      refine Node.eq_of_expand_eq h fun u hu v hv huv => ?_
      exact ih u.index (hi ▸ ht.child_lt hu) rfl (ht.has_child hu) (ht.has_child hv) huv
    exact ht.eq_of_node_eq hx hy hnode

end FormulaTable

open FormulaTable

/-- **Texts identify formulas.**  In a table `t` that any operations lead to, every text is made
of the texts of the operands, and two formulas have the same text exactly if they are the same
formula. -/
theorem text_identifies {t : FormulaTable} (h : Relation.ReflTransGen Operates {} t) :
    (∀ f, t.text f = (t.node f).written t.text) ∧
      ∀ {x y}, t.Has x → t.Has y → (t.text x = t.text y ↔ x = y) := by
  have ht := wellFormed_of_operates h
  refine ⟨ht.text_eq, fun hx hy => ⟨fun htext => ?_, fun hsame => congrArg t.text hsame⟩⟩
  exact ht.eq_of_expr_eq hx hy (Expr.text_injective htext)

/-- A table with an implication between two atoms, its negation, and the equivalence of the
atoms. -/
def signsTable : FormulaTable :=
  List.foldl push atomPairTable [.implies ⟨0⟩ ⟨1⟩, .not ⟨2⟩, .equals ⟨0⟩ ⟨1⟩]

theorem reachable_signsTable : Relation.ReflTransGen Operates {} signsTable :=
  ((reachable_atomPairTable.tail
    (.mkImplies (x := ⟨0⟩) (y := ⟨1⟩) (by decide) (by decide))).tail
    (.mkNot (x := ⟨2⟩) (by decide))).tail
    (.mkEquals (x := ⟨0⟩) (y := ⟨1⟩) (by decide) (by decide))

/-- In `signsTable` the texts of the implication and the equivalence differ, and the text of the
negation belongs to no other formula. -/
theorem signsTable_identified :
    Relation.ReflTransGen Operates {} signsTable ∧
      signsTable.text ⟨2⟩ = "(A0 => A1)" ∧ signsTable.text ⟨2⟩ ≠ signsTable.text ⟨4⟩ ∧
      ∀ f, signsTable.Has f → signsTable.text f = "!(A0 => A1)" → f = ⟨3⟩ := by
  obtain ⟨-, hiff⟩ := text_identifies reachable_signsTable
  have hnegation : signsTable.text ⟨3⟩ = "!(A0 => A1)" := by decide +kernel
  refine ⟨reachable_signsTable, by decide +kernel, fun h => ?_, fun f hf htext => ?_⟩
  · exact absurd ((hiff (by decide) (by decide)).1 h) (by decide)
  · rw [← hnegation] at htext
    exact (hiff hf (by decide)).1 htext

end FlowFacts
