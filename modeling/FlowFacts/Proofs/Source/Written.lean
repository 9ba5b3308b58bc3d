import FlowFacts.Program.Listing
import FlowFacts.Source.Load
import FlowFacts.Proofs.Source.Token

/-!
# The written form of trees

How trees are written as lines of text, in the layout of listings, and that the grammar reads
them back.  A tree can be written only if its words are names (`Legible`).  One label is
excluded: the instructions of a block go on as long as one can be read, so a block labelled
`nop` behind another block would be read as an instruction.

## Main definitions

* `OperationDecl.text`, `BlockDecl.lines`, `FunctionDecl.lines`, `textOf` — the written forms.
* `Legible` — the trees whose words are names.

## Main results

* `reads_operation`, `readsAll_block`, `readsAll_function` — phrases are read back.
* `read_textOf` — so are whole texts.
-/

namespace FlowFacts.Source

open Rule Grammar Program

/-! ### Written forms -/

/-- An operation as it is written. -/
def OperationDecl.text : OperationDecl → String
  | .annotate name => "annotate " ++ name
  | .not arg => "not " ++ arg
  | .binary op lhs rhs => op.keyword ++ " " ++ lhs ++ ", " ++ rhs
  | .branch label args => "br " ++ label ++ "(" ++ String.intercalate ", " args ++ ")"
  | .call path args => "call " ++ pathText path ++ "(" ++ String.intercalate ", " args ++ ")"
  | .condBranch cond trueLabel trueArgs falseLabel falseArgs =>
      "cbr " ++ cond ++ ", " ++ trueLabel ++ "(" ++ String.intercalate ", " trueArgs ++ "), " ++
        falseLabel ++ "(" ++ String.intercalate ", " falseArgs ++ ")"
  | .compare predicate lhs rhs => "cmp " ++ predicate.keyword ++ " " ++ lhs ++ " " ++ rhs
  | .const _ value => "const " ++ value.text
  | .nop => "nop"
  | .ret ty value => "ret " ++ ty.text ++ " " ++ value

/-- The instruction `d` as it is written. -/
def InstructionDecl.text (d : InstructionDecl) : String :=
  match d.name with
  | some name => name ++ " = " ++ d.operation.text
  | none => d.operation.text

/-- A parameter `x` as it is written. -/
def parameterText (x : String × Ty) : String := x.1 ++ ": " ++ x.2.text

/-- A list of parameters, `xs`, as it is written. -/
def parametersText (xs : List (String × Ty)) : String :=
  "(" ++ String.intercalate ", " (xs.map parameterText) ++ ")"

/-- The lines of the block `d`. -/
def BlockDecl.lines (d : BlockDecl) : List Line :=
  .text 0 (d.label ++ parametersText d.params ++ ":") :: d.body.map fun x => .text 0 x.text

/-- The head of the function `d`. -/
def FunctionDecl.head (d : FunctionDecl) : String :=
  "fn " ++ pathText d.path ++ parametersText d.args ++ " -> " ++ d.returnType.text

/-- The lines of the function `d`. -/
def FunctionDecl.lines (d : FunctionDecl) : List Line :=
  match d.blocks with
  | none => [.text 0 d.head]
  | some blocks => .text 0 (d.head ++ " \x7b") ::
      (separate (blocks.map BlockDecl.lines)).map (Line.indent 4) ++ [.text 0 "\x7d"]

/-- The text of the program with the functions `ds`. -/
def textOf (ds : List FunctionDecl) : String :=
  renderLines (.text 0 "module \x7b" ::
    (separate (ds.map FunctionDecl.lines)).map (Line.indent 4) ++ [.text 0 "\x7d"])

/-! ### Words that are names -/

/-- The words of an operation are names, and a constant has the type it is written with. -/
def OperationDecl.Legible : OperationDecl → Prop
  | .annotate name => IsName name
  | .not arg => IsName arg
  | .binary _ lhs rhs | .compare _ lhs rhs => IsName lhs ∧ IsName rhs
  | .branch label args => IsName label ∧ ∀ x ∈ args, IsName x
  | .call path args => path ≠ [] ∧ (∀ x ∈ path, IsName x) ∧ ∀ x ∈ args, IsName x
  | .condBranch cond trueLabel trueArgs falseLabel falseArgs =>
      IsName cond ∧ (IsName trueLabel ∧ ∀ x ∈ trueArgs, IsName x) ∧
        IsName falseLabel ∧ ∀ x ∈ falseArgs, IsName x
  | .const ty value => value.ty = ty
  | .nop => True
  | .ret _ value => IsName value

/-- The words of the instruction `d` are names. -/
def InstructionDecl.Legible (d : InstructionDecl) : Prop :=
  (∀ x ∈ d.name, IsName x) ∧ d.operation.Legible

/-- The words of the block `d` are names. -/
structure BlockDecl.Legible (d : BlockDecl) : Prop where
  /-- The label is one. -/
  label : IsName d.label
  /-- The parameters are named by names. -/
  params : ∀ x ∈ d.params, IsName x.1
  /-- So are the words of the instructions. -/
  body : ∀ x ∈ d.body, x.Legible

/-- The words of the function `d` are names, and no block but the first is labelled `nop`. -/
structure FunctionDecl.Legible (d : FunctionDecl) : Prop where
  /-- There is a path. -/
  path_ne : d.path ≠ []
  /-- Its segments are names. -/
  path : ∀ x ∈ d.path, IsName x
  /-- The arguments are named by names. -/
  args : ∀ x ∈ d.args, IsName x.1
  /-- So are the words of the blocks. -/
  blocks : ∀ bs ∈ d.blocks, ∀ b ∈ bs, b.Legible
  /-- The blocks after the first are not taken for instructions. -/
  labels : ∀ bs ∈ d.blocks, ∀ b ∈ bs.tail, b.label ≠ "nop"

/-! ### Lists with separators -/

variable {α β : Type} {cs : List Char} {x w k : String} {path : List String}
  {rest t stop : List Char}

/-- Nothing of `cs` is skipped, and a word may end before it. -/
def Halts (cs : List Char) : Prop := Ends cs ∧ skip cs = cs

theorem halts_cons {c : Char} (hname : isNameChar c = false) (hsolid : isSolid c = true) :
    Halts (c :: cs) :=
  ⟨ends_cons.2 hname, skip_of_solid hsolid⟩

/-- The `text` of `x` can be read by the rule `r`, wherever a word may end. -/
structure Readable (r : Rule α) (text : α → List Char) (x : α) : Prop where
  /-- The rule reads the text. -/
  reads : ∀ cs, Ends cs → r.Reads (text x ++ cs) x (skip cs)
  /-- The text does not start with blanks. -/
  skip : ∀ cs, Grammar.skip (text x ++ cs) = text x ++ cs

/-- Values `xs` that each follow a separator, which is written `sep`. -/
theorem readsAll_separated {r : Rule α} {separator : Rule Unit} {text : α → List Char}
    {xs : List α} (sep stop : List Char) (hxs : ∀ x ∈ xs, Readable r text x)
    (hsep : ∀ cs, separator.Reads (sep ++ cs) () (skip cs)) (hne : sep ≠ [])
    (hhalts : ∀ cs, Halts (sep ++ cs)) (hfails : separator.Fails stop) (hstop : Halts stop) :
    ReadsAll (do separator; r) (xs.flatMap (fun x => sep ++ text x) ++ stop) xs stop := by
  induction xs with
  | nil => exact .nil hfails.bind
  | cons x xs ih =>
    rw [List.forall_mem_cons] at hxs
    -- behind a value there is a separator or the end
    have hrest : Halts (xs.flatMap (fun x => sep ++ text x) ++ stop) := by
      cases xs with
      | nil => exact hstop
      | cons y xs =>
        rw [List.flatMap_cons, List.append_assoc, List.append_assoc]
        exact hhalts _
    rw [List.flatMap_cons, List.append_assoc, List.append_assoc]
    refine .cons (((hsep _).bind ?_)) ?_ (ih hxs.2)
    · rw [hxs.1.skip]
      have hread := hxs.1.reads _ hrest.1
      rwa [hrest.2] at hread
    · have hpos := List.length_pos_iff.2 hne
      simp only [List.length_append]
      omega

theorem toList_intercalate_cons (sep x : String) (xs : List String) :
    (sep.intercalate (x :: xs)).toList =
      x.toList ++ xs.flatMap fun y => sep.toList ++ y.toList := by
  induction xs generalizing x with
  | nil => simp
  | cons y xs ih =>
    rw [String.intercalate_cons_cons, String.toList_append, String.toList_append, ih,
      List.flatMap_cons]
    simp only [List.append_assoc]

/-- A list of values `xs` in parentheses, separated by commas. -/
theorem reads_list {r : Rule α} {xs : List α} (text : α → String) (cs : List Char)
    (hxs : ∀ x ∈ xs, Readable r (fun x => (text x).toList) x)
    (hr : r.Fails (')' :: cs)) :
    (do symbol "("; let xs ← separated r comma; symbol ")"; return xs).Reads
      ('(' :: ((String.intercalate ", " (xs.map text)).toList ++ ')' :: cs)) xs (skip cs) := by
  have hstop : Halts (')' :: cs) := halts_cons (by decide) (by decide)
  have hend : (do symbol ")"; return xs : Rule (List α)).Reads (')' :: cs) xs (skip cs) :=
    (reads_char rfl cs).bind (reads_pure _ _)
  refine (reads_char rfl _).bind ?_
  cases xs with
  | nil =>
    refine Reads.bind (a := []) ?_ hend
    rw [List.map_nil, String.intercalate_nil, String.toList_empty, List.nil_append, hstop.2]
    exact hr.separated
  | cons x xs =>
    rw [List.forall_mem_cons] at hxs
    have hrest := readsAll_separated [',', ' '] (')' :: cs) hxs.2
      (fun cs => by simpa using reads_comma (' ' :: cs)) (by simp)
      (fun cs => halts_cons (by decide) (by decide)) (fails_comma (by decide)) hstop
    have hhalts : Halts (xs.flatMap (fun x => [',', ' '] ++ (text x).toList) ++ ')' :: cs) := by
      cases xs with
      | nil => exact hstop
      | cons y xs => exact halts_cons (by decide) (by decide)
    have hfirst := hxs.1.reads _ hhalts.1
    rw [hhalts.2] at hfirst
    have htext : (String.intercalate ", " ((x :: xs).map text)).toList ++ ')' :: cs =
        (text x).toList ++ (xs.flatMap (fun x => [',', ' '] ++ (text x).toList) ++ ')' :: cs) := by
      rw [List.map_cons, toList_intercalate_cons, List.append_assoc, List.flatMap_map]
      rfl
    rw [htext, hxs.1.skip]
    exact (ReadsAll.separated hfirst hrest).bind hend

theorem readable_name (h : IsName x) : Readable name String.toList x :=
  ⟨fun _ hcs => reads_name h hcs, fun cs => h.skip cs⟩

theorem reads_operands {args : List String} (h : ∀ x ∈ args, IsName x) :
    operands.Reads ('(' :: ((String.intercalate ", " args).toList ++ ')' :: cs)) args
      (skip cs) := by
  have hlist := reads_list id cs (fun x hx => readable_name (h x hx))
    (fails_name_cons (by decide))
  rwa [List.map_id] at hlist

theorem readable_parameter {x : String × Ty} (h : IsName x.1) :
    Readable parameter (fun x => (parameterText x).toList) x := by
  have htext : ∀ cs, (parameterText x).toList ++ cs =
      x.1.toList ++ ':' :: ' ' :: (x.2.text.toList ++ cs) := by
    simp [parameterText, String.toList_append]
  refine ⟨fun cs hcs => ?_, fun cs => ?_⟩
  · rw [htext]
    refine (reads_name h (ends_cons.2 (by decide))).bind ?_
    rw [skip_of_solid (by decide)]
    refine (reads_char rfl _).bind ?_
    rw [skip_space, skip_tyText]
    exact (reads_ty x.2 hcs).map rfl
  · rw [htext, h.skip]

theorem reads_parameters {xs : List (String × Ty)} (h : ∀ x ∈ xs, IsName x.1) :
    parameters.Reads ((parametersText xs).toList ++ cs) xs (skip cs) := by
  have hlist := reads_list parameterText cs (fun x hx => readable_parameter (h x hx))
    (fails_name_cons (by decide)).bind
  have htext : (parametersText xs).toList ++ cs =
      '(' :: ((String.intercalate ", " (xs.map parameterText)).toList ++ ')' :: cs) := by
    simp [parametersText, String.toList_append]
  rw [htext]
  exact hlist

theorem reads_path (hne : path ≠ []) (h : ∀ x ∈ path, IsName x) :
    Grammar.path.Reads ((pathText path).toList ++ '(' :: cs) path ('(' :: cs) := by
  have hstop : Halts ('(' :: cs) := halts_cons (by decide) (by decide)
  obtain ⟨x, xs, rfl⟩ := List.exists_cons_of_ne_nil hne
  rw [List.forall_mem_cons] at h
  have hrest := readsAll_separated [':', ':'] ('(' :: cs)
    (fun x hx => readable_name (h.2 x hx)) (fun cs => reads_symbol "::" cs) (by simp)
    (fun cs => halts_cons (by decide) (by decide)) (fails_symbol (by simp)) hstop
  have hhalts : Halts (xs.flatMap (fun x => [':', ':'] ++ x.toList) ++ '(' :: cs) := by
    cases xs with
    | nil => exact hstop
    | cons y xs => exact halts_cons (by decide) (by decide)
  have hfirst := reads_name h.1 hhalts.1
  rw [hhalts.2] at hfirst
  rw [pathText, toList_intercalate_cons, List.append_assoc]
  exact ReadsAll.separated1 hfirst hrest

theorem skip_pathText (hne : path ≠ []) (h : ∀ x ∈ path, IsName x) (cs : List Char) :
    skip ((pathText path).toList ++ cs) = (pathText path).toList ++ cs := by
  obtain ⟨x, xs, rfl⟩ := List.exists_cons_of_ne_nil hne
  rw [List.forall_mem_cons] at h
  rw [pathText, toList_intercalate_cons, List.append_assoc, h.1.skip]

/-! ### Operations -/

/-- A word `w` is not taken for another keyword, `k`. -/
theorem fails_keyword_bind {next : Unit → Rule β} (hcs : Ends cs) (hw : IsWord w.toList)
    (hk : IsWord k.toList) (hne : w ≠ k) : (keyword k >>= next).Fails (w.toList ++ cs) :=
  (fails_keyword hk hw hcs fun h => hne (String.toList_inj.1 h)).bind

theorem reads_keyword_space (k : String) (cs : List Char) :
    (keyword k).Reads (k.toList ++ ' ' :: cs) () (skip cs) := by
  have hends : Ends (' ' :: cs) := ends_cons.2 (by decide)
  have hreads := reads_keyword k hends
  rwa [skip_space] at hreads

/-- The rule of another keyword than `w` is passed over. -/
theorem reads_other_keyword {next : Unit → Rule β} {rs : List (Rule β)} {b : β} (hcs : Ends cs)
    (hk : IsWord w.toList ∧ IsWord k.toList ∧ w ≠ k)
    (h : (choice rs).Reads (w.toList ++ cs) b rest) :
    (choice ((keyword k >>= next) :: rs)).Reads (w.toList ++ cs) b rest :=
  reads_choice_tail (fails_keyword_bind hcs hk.1 hk.2.1 hk.2.2) h

/-- The rule of the keyword `k` is chosen. -/
theorem reads_own_keyword {k : String} {next : Unit → Rule β} {rs : List (Rule β)} {b : β}
    (h : (next ()).Reads (skip cs) b rest) :
    (choice ((keyword k >>= next) :: rs)).Reads (k.toList ++ ' ' :: cs) b rest :=
  reads_choice_head ((reads_keyword_space k cs).bind h)

theorem reads_comparison (predicate : Comparison) (cs : List Char) :
    comparison.Reads (predicate.keyword.toList ++ cs) predicate (skip cs) := by
  have hother : ∀ {cs : List Char} {s : String} (q : Comparison), ¬ s.toList <+: cs →
      (do symbol s; return q).Fails cs := fun _ h => (fails_symbol h).bind
  cases predicate with
  | eq => exact reads_choice_head ((reads_symbol "eq" cs).bind (reads_pure _ _))
  | ne =>
    refine reads_choice_tail (hother _ (by simp [Comparison.keyword])) ?_
    exact reads_choice_head ((reads_symbol "ne" cs).bind (reads_pure _ _))
  | lt =>
    iterate 3 refine reads_choice_tail (hother _ (by simp [Comparison.keyword])) ?_
    exact reads_choice_head ((reads_symbol "lt" cs).bind (reads_pure _ _))
  | gt =>
    iterate 2 refine reads_choice_tail (hother _ (by simp [Comparison.keyword])) ?_
    exact reads_choice_head ((reads_symbol "gt" cs).bind (reads_pure _ _))

theorem reads_binaryOp (op : BinaryOp) (cs : List Char) :
    binaryOp.Reads (op.keyword.toList ++ ' ' :: cs) op (skip cs) := by
  have hends : Ends (' ' :: cs) := ends_cons.2 (by decide)
  cases op with
  | and => exact reads_own_keyword (reads_pure _ _)
  | or =>
    refine reads_other_keyword hends (by decide) ?_
    exact reads_own_keyword (reads_pure _ _)
  | xor =>
    iterate 2 refine reads_other_keyword hends (by decide) ?_
    exact reads_own_keyword (reads_pure _ _)
  | add =>
    iterate 3 refine reads_other_keyword hends (by decide) ?_
    exact reads_own_keyword (reads_pure _ _)
  | sub =>
    iterate 4 refine reads_other_keyword hends (by decide) ?_
    exact reads_own_keyword (reads_pure _ _)
  | mul =>
    iterate 5 refine reads_other_keyword hends (by decide) ?_
    exact reads_own_keyword (reads_pure _ _)

/-- A name `x` and the comma behind it. -/
theorem reads_name_comma {next : String → Rule β} {b : β} (h : IsName x)
    (hnext : (next x).Reads (skip cs) b rest) :
    (name >>= fun y => comma >>= fun _ => next y).Reads (x.toList ++ ',' :: ' ' :: cs) b rest := by
  refine (reads_name h (ends_cons.2 (by decide))).bind ?_
  rw [skip_of_solid (by decide)]
  refine (reads_comma _).bind ?_
  rwa [skip_space]

/-- A label `x` with what is passed to it, `args`. -/
theorem reads_label {args : List String} {next : String → List String → Rule β} {b : β}
    (h : IsName x) (hargs : ∀ y ∈ args, IsName y) (hnext : (next x args).Reads (skip cs) b rest) :
    (name >>= fun y => operands >>= fun ys => next y ys).Reads
      (x.toList ++ '(' :: ((String.intercalate ", " args).toList ++ ')' :: cs)) b rest := by
  refine (reads_name h (ends_cons.2 (by decide))).bind ?_
  rw [skip_of_solid (by decide)]
  exact (reads_operands hargs).bind hnext

theorem reads_operation {d : OperationDecl} (h : d.Legible) (hcs : Ends cs) :
    operation.Reads (d.text.toList ++ cs) d (skip cs) := by
  have hends : ∀ cs, Ends (' ' :: cs) := fun cs => ends_cons.2 (by decide)
  -- in each case the keywords of the rules before it are other words
  cases d with
  | annotate x =>
    rw [show (OperationDecl.annotate x).text.toList ++ cs =
      "annotate".toList ++ ' ' :: (x.toList ++ cs) by simp [OperationDecl.text]]
    refine reads_own_keyword ?_
    rw [IsName.skip h]
    exact (reads_name h hcs).map rfl
  | branch label args =>
    rw [show (OperationDecl.branch label args).text.toList ++ cs = "br".toList ++
      ' ' :: (label.toList ++ '(' :: ((String.intercalate ", " args).toList ++ ')' :: cs)) by
      simp [OperationDecl.text]]
    refine reads_other_keyword (hends _) (by decide) ?_
    refine reads_own_keyword ?_
    rw [h.1.skip]
    exact reads_label h.1 h.2 (reads_pure _ _)
  | call path args =>
    rw [show (OperationDecl.call path args).text.toList ++ cs = "call".toList ++
      ' ' :: ((pathText path).toList ++ '(' :: ((String.intercalate ", " args).toList ++
        ')' :: cs)) by simp [OperationDecl.text]]
    iterate 2 refine reads_other_keyword (hends _) (by decide) ?_
    refine reads_own_keyword ?_
    rw [skip_pathText h.1 h.2.1]
    exact (reads_path h.1 h.2.1).bind ((reads_operands h.2.2).map rfl)
  | condBranch cond trueLabel trueArgs falseLabel falseArgs =>
    obtain ⟨hcond, ⟨htrue, htrueArgs⟩, hfalse, hfalseArgs⟩ := h
    rw [show (OperationDecl.condBranch cond trueLabel trueArgs falseLabel falseArgs).text.toList ++
      cs = "cbr".toList ++ ' ' :: (cond.toList ++ ',' :: ' ' :: (trueLabel.toList ++
        '(' :: ((String.intercalate ", " trueArgs).toList ++ ')' :: ',' :: ' ' ::
        (falseLabel.toList ++ '(' :: ((String.intercalate ", " falseArgs).toList ++
        ')' :: cs))))) by simp [OperationDecl.text]]
    iterate 3 refine reads_other_keyword (hends _) (by decide) ?_
    refine reads_own_keyword ?_
    rw [hcond.skip]
    refine reads_name_comma hcond ?_
    rw [htrue.skip]
    refine reads_label htrue htrueArgs ?_
    rw [skip_of_solid (by decide)]
    refine (reads_comma _).bind ?_
    rw [skip_space, hfalse.skip]
    exact reads_label hfalse hfalseArgs (reads_pure _ _)
  | compare predicate lhs rhs =>
    rw [show (OperationDecl.compare predicate lhs rhs).text.toList ++ cs = "cmp".toList ++
      ' ' :: (predicate.keyword.toList ++ ' ' :: (lhs.toList ++ ' ' :: (rhs.toList ++ cs))) by
      simp [OperationDecl.text]]
    iterate 4 refine reads_other_keyword (hends _) (by decide) ?_
    refine reads_own_keyword ?_
    rw [show skip (predicate.keyword.toList ++ ' ' :: (lhs.toList ++ ' ' :: (rhs.toList ++ cs))) =
      predicate.keyword.toList ++ ' ' :: (lhs.toList ++ ' ' :: (rhs.toList ++ cs)) by
      cases predicate <;> exact skip_of_solid (by decide)]
    refine (reads_comparison predicate _).bind ?_
    rw [skip_space, h.1.skip]
    refine (reads_name h.1 (hends _)).bind ?_
    rw [skip_space, h.2.skip]
    exact (reads_name h.2 hcs).map rfl
  | const ty value =>
    rw [show (OperationDecl.const ty value).text.toList ++ cs = "const".toList ++
      ' ' :: (value.ty.text.toList ++ ' ' :: (valueText value ++ cs)) by
      simp [OperationDecl.text, toList_text]]
    iterate 5 refine reads_other_keyword (hends _) (by decide) ?_
    refine reads_own_keyword ?_
    rw [skip_tyText]
    refine (reads_ty value.ty (hends _)).bind ?_
    rw [skip_space, skip_valueText]
    refine (reads_constant value hcs).map ?_
    rw [show value.ty = ty from h]
  | nop =>
    rw [show OperationDecl.nop.text.toList ++ cs = "nop".toList ++ cs by rfl]
    iterate 6 refine reads_other_keyword hcs (by decide) ?_
    exact reads_choice_head ((reads_keyword _ hcs).bind (reads_pure _ _))
  | ret ty value =>
    rw [show (OperationDecl.ret ty value).text.toList ++ cs = "ret".toList ++
      ' ' :: (ty.text.toList ++ ' ' :: (value.toList ++ cs)) by simp [OperationDecl.text]]
    iterate 7 refine reads_other_keyword (hends _) (by decide) ?_
    refine reads_own_keyword ?_
    rw [skip_tyText]
    refine (reads_ty ty (hends _)).bind ?_
    rw [skip_space, IsName.skip h]
    exact (reads_name h hcs).map rfl
  | not arg =>
    rw [show (OperationDecl.not arg).text.toList ++ cs = "not".toList ++ ' ' :: (arg.toList ++ cs)
      by simp [OperationDecl.text]]
    iterate 8 refine reads_other_keyword (hends _) (by decide) ?_
    refine reads_own_keyword ?_
    rw [IsName.skip h]
    exact (reads_name h hcs).map rfl
  | binary op lhs rhs =>
    rw [show (OperationDecl.binary op lhs rhs).text.toList ++ cs = op.keyword.toList ++
      ' ' :: (lhs.toList ++ ',' :: ' ' :: (rhs.toList ++ cs)) by simp [OperationDecl.text]]
    iterate 9 refine reads_other_keyword (hends _) (by cases op <;> decide) ?_
    refine reads_choice_head ((reads_binaryOp op _).bind ?_)
    rw [h.1.skip]
    refine reads_name_comma h.1 ?_
    rw [h.2.skip]
    exact (reads_name h.2 hcs).map rfl

/-! ### Instructions -/

/-- The text `t` starts neither with blanks nor with an equality sign. -/
def Begins (t : List Char) : Prop := ∃ c t', t = c :: t' ∧ isSolid c = true ∧ c ≠ '='

theorem Begins.append (h : Begins t) (cs : List Char) : Begins (t ++ cs) := by
  obtain ⟨c, t', rfl, hc⟩ := h
  exact ⟨c, t' ++ cs, rfl, hc⟩

theorem begins_name (h : IsName x) : Begins x.toList := by
  obtain ⟨first, others, hx, hfirst, -⟩ := h.word
  have hchar := isNameChar_of_isNameStart hfirst
  refine ⟨first, others, hx, isSolid_of_isNameChar hchar, ?_⟩
  rintro rfl
  revert hfirst
  decide

theorem begins_tyText (t : Ty) : Begins t.text.toList := by
  cases t <;> exact ⟨_, _, rfl, by decide, by decide⟩

theorem begins_keyword (predicate : Comparison) : Begins predicate.keyword.toList := by
  cases predicate <;> exact ⟨_, _, rfl, by decide, by decide⟩

theorem begins_pathText (hne : path ≠ []) (h : ∀ x ∈ path, IsName x) :
    Begins (pathText path).toList := by
  obtain ⟨x, xs, rfl⟩ := List.exists_cons_of_ne_nil hne
  rw [pathText, toList_intercalate_cons]
  exact (begins_name (h x List.mem_cons_self)).append _

/-- The operation `d` starts with a word, and behind it there is nothing or something else than
an equality sign. -/
theorem OperationDecl.exists_word {d : OperationDecl} (h : d.Legible) :
    ∃ w rest, d.text.toList = w.toList ++ rest ∧ IsName w ∧
      (rest = [] ∨ ∃ t, rest = ' ' :: t ∧ Begins t) := by
  cases d with
  | annotate x =>
    exact ⟨"annotate", ' ' :: x.toList, by simp [OperationDecl.text],
      by decide, Or.inr ⟨_, rfl, begins_name h⟩⟩
  | not x =>
    exact ⟨"not", ' ' :: x.toList, by simp [OperationDecl.text],
      by decide, Or.inr ⟨_, rfl, begins_name h⟩⟩
  | binary op lhs rhs =>
    refine ⟨op.keyword, ' ' :: (lhs.toList ++ (", " ++ rhs).toList), by simp [OperationDecl.text],
      ?_, Or.inr ⟨_, rfl, (begins_name h.1).append _⟩⟩
    cases op <;> exact by decide
  | branch label args =>
    exact ⟨"br", ' ' :: (label.toList ++ ("(" ++ String.intercalate ", " args ++ ")").toList),
      by simp [OperationDecl.text], by decide,
      Or.inr ⟨_, rfl, (begins_name h.1).append _⟩⟩
  | call path args =>
    exact ⟨"call", ' ' :: ((pathText path).toList ++
      ("(" ++ String.intercalate ", " args ++ ")").toList), by simp [OperationDecl.text],
      by decide,
      Or.inr ⟨_, rfl, (begins_pathText h.1 h.2.1).append _⟩⟩
  | condBranch cond trueLabel trueArgs falseLabel falseArgs =>
    exact ⟨"cbr", ' ' :: (cond.toList ++ (", " ++ trueLabel ++ "(" ++
      String.intercalate ", " trueArgs ++ "), " ++ falseLabel ++ "(" ++
      String.intercalate ", " falseArgs ++ ")").toList), by simp [OperationDecl.text],
      by decide, Or.inr ⟨_, rfl, (begins_name h.1).append _⟩⟩
  | compare predicate lhs rhs =>
    exact ⟨"cmp", ' ' :: (predicate.keyword.toList ++ (" " ++ lhs ++ " " ++ rhs).toList),
      by simp [OperationDecl.text], by decide,
      Or.inr ⟨_, rfl, (begins_keyword predicate).append _⟩⟩
  | const ty value =>
    exact ⟨"const", ' ' :: (value.ty.text.toList ++ ' ' :: valueText value),
      by simp [OperationDecl.text, toList_text], by decide,
      Or.inr ⟨_, rfl, (begins_tyText _).append _⟩⟩
  | nop => exact ⟨"nop", [], rfl, by decide, Or.inl rfl⟩
  | ret ty value =>
    exact ⟨"ret", ' ' :: (ty.text.toList ++ (" " ++ value).toList), by simp [OperationDecl.text],
      by decide, Or.inr ⟨_, rfl, (begins_tyText _).append _⟩⟩

theorem OperationDecl.skip_text {d : OperationDecl} (h : d.Legible) (cs : List Char) :
    Grammar.skip (d.text.toList ++ cs) = d.text.toList ++ cs := by
  obtain ⟨w, rest, htext, hw, -⟩ := d.exists_word h
  rw [htext, List.append_assoc, hw.skip]

/-- There is no equality sign at the start of `cs` that would make the word before it a result. -/
def NoEquals (cs : List Char) : Prop := ∀ c ∈ (Grammar.skip cs).head?, c ≠ '='

theorem fails_equals (h : ∀ c ∈ t.head?, c ≠ '=') : (symbol "=").Fails t := by
  refine fails_symbol ?_
  rintro ⟨t', rfl⟩
  exact h '=' rfl rfl

theorem reads_instruction {d : InstructionDecl} (h : d.Legible) (hcs : Ends cs)
    (hequals : NoEquals cs) : instruction.Reads (d.text.toList ++ cs) d (skip cs) := by
  obtain ⟨result, op⟩ := d
  have hop : op.Legible := h.2
  cases result with
  | some x =>
    have hx : IsName x := h.1 x rfl
    rw [show (InstructionDecl.mk (some x) op).text.toList ++ cs =
      x.toList ++ ' ' :: '=' :: ' ' :: (op.text.toList ++ cs) by simp [InstructionDecl.text]]
    have hresult : (do let x ← name; symbol "="; return x).Reads
        (x.toList ++ ' ' :: '=' :: ' ' :: (op.text.toList ++ cs)) x (op.text.toList ++ cs) := by
      refine (reads_name hx (ends_cons.2 (by decide))).bind ?_
      rw [skip_space, skip_of_solid (by decide)]
      have hsymbol := reads_char (s := "=") rfl (' ' :: (op.text.toList ++ cs))
      rw [skip_space, OperationDecl.skip_text hop] at hsymbol
      exact hsymbol.bind (reads_pure _ _)
    exact hresult.optional.bind ((reads_operation hop hcs).map rfl)
  | none =>
    -- the first word of the operation could be a result, but no equality sign follows
    obtain ⟨w, rest, htext, hw, hrest⟩ := OperationDecl.exists_word hop
    have hresult : (do let x ← name; symbol "="; return x).Fails (op.text.toList ++ cs) := by
      rw [htext, List.append_assoc]
      rcases hrest with rfl | ⟨t, rfl, c, t', rfl, hsolid, hne⟩
      · exact (reads_name hw hcs).bind_fails (fails_equals hequals).bind
      · rw [List.cons_append, List.cons_append]
        refine (reads_name hw (ends_cons.2 (by decide))).bind_fails (fails_equals ?_).bind
        rw [skip_space, skip_of_solid hsolid]
        rintro _ ⟨⟩
        exact hne
    exact hresult.optional.bind ((reads_operation hop hcs).map rfl)

/-! ### Where instructions end -/

/-- A word `w` that may be the keyword `k`, if what must follow the keyword does not. -/
theorem fails_keyword_next {next : Unit → Rule β} (hw : IsName w) (hcs : Ends cs)
    (hk : IsWord k.toList) (hnext : (next ()).Fails (skip cs)) :
    (keyword k >>= next).Fails (w.toList ++ cs) := by
  by_cases hwk : w = k
  · subst hwk
    exact (reads_keyword w hcs).bind_fails hnext
  · exact fails_keyword_bind hcs hw.isWord hk hwk

/-- What stands behind a label: parentheses with nothing or with something in them. -/
inductive Opens : List Char → Prop
  /-- Nothing is in them. -/
  | empty (cs : List Char) : Opens ('(' :: ')' :: ':' :: cs)
  /-- Something is. -/
  | params {c : Char} (cs : List Char) : c ≠ ')' → Opens ('(' :: c :: cs)

theorem Opens.halts (h : Opens cs) : Halts cs := by
  cases h <;> exact halts_cons (by decide) (by decide)

theorem Opens.fails_name (h : Opens cs) : name.Fails cs := by
  cases h <;> exact fails_name_cons (by decide)

theorem Opens.fails_comparison (h : Opens cs) : comparison.Fails cs := by
  refine fails_choice ?_
  cases h <;> simp only [List.forall_mem_cons] <;>
    exact ⟨(fails_symbol (by simp)).bind, (fails_symbol (by simp)).bind,
      (fails_symbol (by simp)).bind, (fails_symbol (by simp)).bind, by simp⟩

theorem fails_constant_colon (cs : List Char) : constant.Fails (':' :: cs) := by
  refine fails_choice ?_
  simp only [List.forall_mem_cons]
  refine ⟨(fails_symbol (by simp)).bind, (fails_symbol (by simp)).bind,
    (fails_symbol (by simp)).bind, Fails.bind (Fails.bind (fails_choice ?_)),
    (fails_oneOf_cons (by decide)).bind, by simp⟩
  simp only [List.forall_mem_cons]
  exact ⟨(fails_literal (by simp)).bind, (fails_oneOf_cons (by decide)).bind, by simp⟩

/-- A type behind a label is the one with one value, and a colon follows, on which `next` fails. -/
theorem Opens.fails_ty_bind {next : Ty → Rule β} (h : Opens cs)
    (hnext : ∀ cs, (next .unit).Fails (':' :: cs)) : (ty >>= next).Fails cs := by
  cases h with
  | empty cs =>
    have hends : Ends (':' :: cs) := ends_cons.2 (by decide)
    have hty := reads_ty .unit hends
    rw [skip_of_solid (by decide)] at hty
    exact hty.bind_fails (hnext cs)
  | params cs hc =>
    refine Fails.bind (fails_choice ?_)
    simp only [List.forall_mem_cons]
    refine ⟨Fails.bind (fails_choice ?_), (fails_literal (by simp)).bind.bind,
      (fails_literal (by simp)).bind.bind, (fails_literal (by simp)).bind.bind, by simp⟩
    simp only [List.forall_mem_cons]
    exact ⟨fails_literal (by simp), fails_literal (by simp [hc.symm]), by simp⟩

/-- The `label` of a block is not read as an operation. -/
theorem fails_operation_label {label : String} (h : IsName label) (hne : label ≠ "nop")
    (hcs : Opens cs) : operation.Fails (label.toList ++ cs) := by
  have hends := hcs.halts.1
  have hname : name.Fails (skip cs) := hcs.halts.2.symm ▸ hcs.fails_name
  -- the label may be a keyword, but parentheses follow, where a name has to
  have hkeyword : ∀ {β : Type} {k : String} {next : Unit → Rule β},
      IsWord k.toList → (next ()).Fails (skip cs) →
      (keyword k >>= next).Fails (label.toList ++ cs) := fun hk hnext =>
    fails_keyword_next h hends hk hnext
  refine fails_choice ?_
  simp only [List.forall_mem_cons]
  refine ⟨hkeyword (by decide) hname.bind, hkeyword (by decide) hname.bind,
    hkeyword (by decide) hname.bind.bind, hkeyword (by decide) hname.bind, hkeyword (by decide) ?_,
    hkeyword (by decide) ?_, fails_keyword_bind hends h.isWord (by decide) hne,
    hkeyword (by decide) ?_, hkeyword (by decide) hname.bind, ?_, by simp⟩
  · rw [hcs.halts.2]
    exact hcs.fails_comparison.bind
  · rw [hcs.halts.2]
    exact hcs.fails_ty_bind fun cs => (fails_constant_colon cs).bind
  · rw [hcs.halts.2]
    exact hcs.fails_ty_bind fun cs => (fails_name_cons (by decide)).bind
  · -- the keywords of operations with two operands
    have hop : ∀ {β : Type} {k : String} (op : BinaryOp) {next : BinaryOp → Rule β},
        IsWord k.toList → (next op).Fails (skip cs) →
        ((do keyword k; return op) >>= next).Fails (label.toList ++ cs) := by
      intro β k op next hk hnext
      by_cases hlabel : label = k
      · subst hlabel
        exact ((reads_keyword label hends).bind (reads_pure op _)).bind_fails hnext
      · exact (fails_keyword_bind hends h.isWord hk hlabel).bind
    refine fails_choice_bind ?_
    simp only [List.forall_mem_cons]
    exact ⟨hop _ (by decide) hname.bind, hop _ (by decide) hname.bind,
      hop _ (by decide) hname.bind, hop _ (by decide) hname.bind, hop _ (by decide) hname.bind,
      hop _ (by decide) hname.bind, by simp⟩

theorem fails_instruction_label {label : String} (h : IsName label) (hne : label ≠ "nop")
    (hcs : Opens cs) : instruction.Fails (label.toList ++ cs) := by
  have hresult : (do let x ← name; symbol "="; return x).Fails (label.toList ++ cs) := by
    refine (reads_name h hcs.halts.1).bind_fails (fails_equals ?_).bind
    rw [hcs.halts.2]
    cases hcs <;> simp
  exact hresult.optional.bind_fails (fails_operation_label h hne hcs).bind

theorem fails_instruction_brace (cs : List Char) : instruction.Fails ('\x7d' :: cs) := by
  have hresult : (do let x ← name; symbol "="; return x).Fails ('\x7d' :: cs) :=
    (fails_name_cons (by decide)).bind
  have hkeyword : ∀ {β : Type} {k : String} {next : Unit → Rule β}, ¬ k.toList <+: '\x7d' :: cs →
      (keyword k >>= next).Fails ('\x7d' :: cs) := fun h => (fails_literal h).bind.bind
  refine hresult.optional.bind_fails (Fails.bind (fails_choice ?_))
  simp only [List.forall_mem_cons]
  refine ⟨hkeyword (by simp), hkeyword (by simp), hkeyword (by simp), hkeyword (by simp),
    hkeyword (by simp), hkeyword (by simp), hkeyword (by simp), hkeyword (by simp),
    hkeyword (by simp), Fails.bind (fails_choice ?_), by simp⟩
  simp only [List.forall_mem_cons]
  exact ⟨hkeyword (by simp), hkeyword (by simp), hkeyword (by simp), hkeyword (by simp),
    hkeyword (by simp), hkeyword (by simp), by simp⟩

/-! ### Lines -/

/-- The characters of `lines` at the depth of indentation `n`. -/
def charsAt (n : Nat) (lines : List Line) : List Char :=
  lines.flatMap fun l => (l.indent n).render.toList

theorem charsAt_cons (n : Nat) (l : Line) (lines : List Line) :
    charsAt n (l :: lines) = (l.indent n).render.toList ++ charsAt n lines := rfl

theorem charsAt_append (n : Nat) (lines lines' : List Line) :
    charsAt n (lines ++ lines') = charsAt n lines ++ charsAt n lines' := by
  simp [charsAt]

theorem charsAt_map_indent (n m : Nat) (lines : List Line) :
    charsAt n (lines.map (Line.indent m)) = charsAt (n + m) lines := by
  simp only [charsAt, List.flatMap_map]
  refine congrArg (fun g => List.flatMap g lines) (funext fun l => ?_)
  cases l with
  | blank => rfl
  | text k content => rw [Line.indent, Line.indent, Line.indent, Nat.add_assoc]

theorem toList_renderLines (lines : List Line) : (renderLines lines).toList = charsAt 0 lines := by
  have hindent : ∀ l : Line, l.indent 0 = l := fun l => by cases l <;> simp [Line.indent]
  simp only [renderLines, charsAt, hindent, String.toList_join, List.map_map, List.flatMap]
  rfl

theorem skip_text (n m : Nat) (content : String) (cs : List Char) :
    skip (((Line.text m content).indent n).render.toList ++ cs) =
      skip (content.toList ++ '\n' :: cs) := by
  simp only [Line.indent, Line.render, String.toList_append, String.toList_ofList,
    List.append_assoc]
  rw [skip_replicate_space]
  rfl

theorem length_skip_le (cs : List Char) : (skip cs).length ≤ cs.length := by
  rw [skip, List.length_drop]
  exact Nat.sub_le _ _

/-- Groups of lines with blank lines between them are read one by one, if each of them can be
read in front of what follows it, which is `Good`. -/
theorem readsAll_separate {r : Rule α} {lines : α → List Line} (Good : List Char → Prop) {n : Nat}
    {xs : List α} (hread : ∀ x ∈ xs, ∀ stop, Good stop →
      r.Reads (skip (charsAt n (lines x) ++ stop)) x (skip stop))
    (hlength : ∀ x ∈ xs, ∀ stop, (skip stop).length < (skip (charsAt n (lines x) ++ stop)).length)
    (hgood : ∀ x ∈ xs.tail, ∀ cs, Good ('\n' :: (charsAt n (lines x) ++ cs))) (hstop : Good stop)
    (hfails : r.Fails (skip stop)) :
    ReadsAll r (skip (charsAt n (separate (xs.map lines)) ++ stop)) xs (skip stop) := by
  induction xs with
  | nil => exact .nil hfails
  | cons x xs ih =>
    rw [List.forall_mem_cons] at hread hlength
    cases xs with
    | nil =>
      exact .cons (hread.1 stop hstop) (hlength.1 stop) (.nil hfails)
    | cons y ys =>
      -- a blank line comes after the first group
      have hsplit : charsAt n (separate ((x :: y :: ys).map lines)) ++ stop =
          charsAt n (lines x) ++ '\n' :: (charsAt n (separate ((y :: ys).map lines)) ++ stop) := by
        simp [separate, charsAt_append, charsAt_cons, Line.indent, Line.render]
      have hnext : Good ('\n' :: (charsAt n (separate ((y :: ys).map lines)) ++ stop)) := by
        have hy := hgood y (by simp)
        cases ys with
        | nil => exact hy stop
        | cons z zs =>
          simp only [List.map_cons, separate, charsAt_append, List.append_assoc]
          exact hy _
      rw [hsplit]
      have hx := hread.1 _ hnext
      have hlen := hlength.1 ('\n' :: (charsAt n (separate ((y :: ys).map lines)) ++ stop))
      rw [skip_newline] at hx hlen
      refine .cons hx hlen (ih hread.2 hlength.2 fun z hz => hgood z ?_)
      exact List.mem_of_mem_tail hz

/-! ### Blocks -/

theorem begins_instructionText {d : InstructionDecl} (h : d.Legible) : Begins d.text.toList := by
  obtain ⟨result, op⟩ := d
  cases result with
  | some x =>
    rw [show (InstructionDecl.mk (some x) op).text.toList = x.toList ++ (" = " ++ op.text).toList by
      simp [InstructionDecl.text]]
    exact (begins_name (h.1 x rfl)).append _
  | none =>
    obtain ⟨w, rest, htext, hw, -⟩ := OperationDecl.exists_word h.2
    rw [show (InstructionDecl.mk none op).text.toList = w.toList ++ rest from htext]
    exact (begins_name hw).append _

theorem Begins.skip (h : Begins t) (cs : List Char) : Grammar.skip (t ++ cs) = t ++ cs := by
  obtain ⟨c, t', rfl, hc, -⟩ := h
  exact skip_of_solid hc

theorem Begins.head_ne (h : Begins t) (cs : List Char) : ∀ c ∈ (t ++ cs).head?, c ≠ '=' := by
  obtain ⟨c, t', rfl, -, hc⟩ := h
  rintro _ ⟨⟩
  exact hc

theorem Begins.noEquals (h : Begins t) (cs : List Char) : NoEquals (t ++ cs) := by
  rw [NoEquals, h.skip]
  exact h.head_ne cs

theorem noEquals_newline {cs : List Char} : NoEquals ('\n' :: cs) ↔ NoEquals cs := by
  rw [NoEquals, NoEquals, skip_newline]

/-- The instructions of `body`, in front of something that is none. -/
theorem readsAll_instruction {body : List InstructionDecl} (h : ∀ x ∈ body, x.Legible) (n : Nat)
    (hstop : instruction.Fails (skip stop)) (hequals : NoEquals stop) :
    ReadsAll instruction (skip (charsAt n (body.map fun x => .text 0 x.text) ++ stop)) body
      (skip stop) := by
  induction body with
  | nil => exact .nil hstop
  | cons x body ih =>
    rw [List.forall_mem_cons] at h
    rw [List.map_cons, charsAt_cons, List.append_assoc, skip_text,
      (begins_instructionText h.1).skip]
    have hnext : NoEquals ('\n' :: (charsAt n (body.map fun x => .text 0 x.text) ++ stop)) := by
      rw [noEquals_newline]
      cases body with
      | nil => exact hequals
      | cons y body =>
        rw [List.map_cons, charsAt_cons, List.append_assoc, NoEquals, skip_text]
        exact (begins_instructionText (h.2 y List.mem_cons_self)).noEquals _
    have hx := reads_instruction h.1 (ends_cons.2 (by decide)) hnext
    rw [skip_newline] at hx
    refine .cons hx ?_ (ih h.2)
    have hlen := length_skip_le (charsAt n (body.map fun x => .text 0 x.text) ++ stop)
    rw [List.length_append, List.length_cons]
    omega

/-- The line with the label of the block `d` comes first. -/
theorem skip_blockLines {d : BlockDecl} (h : d.Legible) (n : Nat) (cs : List Char) :
    skip (charsAt n d.lines ++ cs) = d.label.toList ++ ((parametersText d.params).toList ++
      ':' :: '\n' :: (charsAt n (d.body.map fun x => .text 0 x.text) ++ cs)) := by
  rw [BlockDecl.lines, charsAt_cons, List.append_assoc, skip_text, String.toList_append,
    String.toList_append, List.append_assoc, List.append_assoc, h.label.skip]
  simp

theorem opens_parametersText {xs : List (String × Ty)} (h : ∀ x ∈ xs, IsName x.1)
    (cs : List Char) : Opens ((parametersText xs).toList ++ ':' :: cs) := by
  cases xs with
  | nil =>
    rw [show (parametersText []).toList = ['(', ')'] by simp [parametersText]]
    exact .empty cs
  | cons x xs =>
    obtain ⟨first, others, hx, hfirst, -⟩ := (h x List.mem_cons_self).word
    rw [show (parametersText (x :: xs)).toList ++ ':' :: cs = '(' :: first :: (others ++
      ((": " ++ x.2.text).toList ++ (xs.flatMap fun y => ", ".toList ++ (parameterText y).toList) ++
        ')' :: ':' :: cs)) by
      simp only [parametersText, List.map_cons, String.toList_append, toList_intercalate_cons,
        parameterText, hx, List.flatMap_map]
      simp]
    refine .params _ ?_
    rintro rfl
    revert hfirst
    decide

theorem reads_block {d : BlockDecl} (h : d.Legible) (n : Nat)
    (hstop : instruction.Fails (skip stop)) (hequals : NoEquals stop) :
    block.Reads (skip (charsAt n d.lines ++ stop)) d (skip stop) := by
  have hopens := opens_parametersText h.params
    ('\n' :: (charsAt n (d.body.map fun x => .text 0 x.text) ++ stop))
  rw [skip_blockLines h]
  refine (reads_name h.label hopens.halts.1).bind ?_
  rw [hopens.halts.2]
  refine (reads_parameters h.params).bind ?_
  rw [skip_of_solid (by decide)]
  refine (reads_char rfl _).bind ?_
  rw [skip_newline]
  exact (readsAll_instruction h.body n hstop hequals).many.map rfl

/-- The blocks `ds` of a function, in front of the brace that ends it. -/
theorem readsAll_block {ds : List BlockDecl} (h : ∀ d ∈ ds, d.Legible)
    (hlabels : ∀ d ∈ ds.tail, d.label ≠ "nop") (n : Nat) (hstop : ∃ cs, skip stop = '\x7d' :: cs) :
    ReadsAll block (skip (charsAt n (separate (ds.map BlockDecl.lines)) ++ stop)) ds
      (skip stop) := by
  obtain ⟨cs, hcs⟩ := hstop
  refine readsAll_separate (fun cs => instruction.Fails (skip cs) ∧ NoEquals cs)
    (fun d hd stop hgood => reads_block (h d hd) n hgood.1 hgood.2) (fun d hd stop => ?_)
    (fun d hd cs => ?_) ⟨?_, ?_⟩ ?_
  · rw [skip_blockLines (h d hd)]
    have hlen := length_skip_le stop
    simp only [List.length_append, List.length_cons]
    omega
  · -- what follows a block is the label of the next one
    have hd' := h d (List.mem_of_mem_tail hd)
    rw [noEquals_newline, NoEquals, skip_newline, skip_blockLines hd']
    exact ⟨fails_instruction_label hd'.label (hlabels d hd) (opens_parametersText hd'.params _),
      (begins_name hd'.label).head_ne _⟩
  · rw [hcs]
    exact fails_instruction_brace cs
  · rw [NoEquals, hcs]
    rintro _ ⟨⟩
    decide
  · rw [hcs]
    exact (fails_name_cons (by decide)).bind

/-! ### Functions -/

theorem toList_head (d : FunctionDecl) (cs : List Char) : d.head.toList ++ cs =
    'f' :: 'n' :: ' ' :: ((pathText d.path).toList ++ ((parametersText d.args).toList ++
      ' ' :: '-' :: '>' :: ' ' :: (d.returnType.text.toList ++ cs))) := by
  simp [FunctionDecl.head]

/-- The head of the function `d`, in front of its body or something else. -/
theorem reads_function {d : FunctionDecl} (h : d.Legible) (hcs : Ends cs)
    (hbody : (Rule.optional body).Reads (skip cs) d.blocks rest) :
    Grammar.function.Reads (d.head.toList ++ cs) d rest := by
  obtain ⟨t, ht⟩ : ∃ t, (parametersText d.args).toList = '(' :: t :=
    ⟨(String.intercalate ", " (d.args.map parameterText)).toList ++ [')'], by simp [parametersText]⟩
  rw [toList_head]
  refine (reads_symbol "fn" (' ' :: _)).bind ?_
  rw [skip_space, skip_pathText h.path_ne h.path, ht, List.cons_append]
  refine (reads_path h.path_ne h.path).bind ?_
  rw [← List.cons_append, ← ht]
  refine (reads_parameters h.args).bind ?_
  rw [skip_space, skip_of_solid (by decide)]
  refine (reads_symbol "->" (' ' :: _)).bind ?_
  rw [skip_space, skip_tyText]
  exact (reads_ty d.returnType hcs).bind (hbody.map rfl)

/-- The blocks `ds` in braces are the body of a function. -/
theorem reads_body {ds : List BlockDecl} (h : ∀ d ∈ ds, d.Legible)
    (hlabels : ∀ d ∈ ds.tail, d.label ≠ "nop") (n : Nat) (cs : List Char) :
    body.Reads ('\x7b' :: '\n' :: (charsAt n ((separate (ds.map BlockDecl.lines)).map
      (Line.indent 4) ++ [.text 0 "\x7d"]) ++ cs)) ds (skip cs) := by
  have hbrace : skip (charsAt n [.text 0 "\x7d"] ++ cs) = '\x7d' :: '\n' :: cs := by
    rw [charsAt_cons, List.append_assoc, skip_text]
    exact skip_of_solid (by decide)
  refine (reads_char rfl _).bind ?_
  rw [skip_newline, charsAt_append, charsAt_map_indent, List.append_assoc]
  refine (readsAll_block h hlabels (n + 4) ⟨_, hbrace⟩).many.bind ?_
  rw [hbrace]
  have hend := reads_char (s := "\x7d") rfl ('\n' :: cs)
  rw [skip_newline] at hend
  exact hend.bind (reads_pure _ _)

theorem skip_head (d : FunctionDecl) (cs : List Char) :
    skip (d.head.toList ++ cs) = d.head.toList ++ cs := by
  rw [toList_head]
  exact skip_of_solid (by decide)

theorem reads_functionLines {d : FunctionDecl} (h : d.Legible) (n : Nat)
    (hstop : (symbol "\x7b").Fails (skip stop)) :
    Grammar.function.Reads (skip (charsAt n d.lines ++ stop)) d (skip stop) := by
  cases hblocks : d.blocks with
  | none =>
    have hlines : d.lines = [.text 0 d.head] := by rw [FunctionDecl.lines, hblocks]
    rw [hlines, charsAt_cons, List.append_assoc, skip_text, skip_head]
    refine reads_function h (ends_cons.2 (by decide)) ?_
    rw [hblocks, skip_newline]
    exact hstop.bind.optional
  | some ds =>
    have hlines : d.lines = .text 0 (d.head ++ " \x7b") ::
        ((separate (ds.map BlockDecl.lines)).map (Line.indent 4) ++ [.text 0 "\x7d"]) := by
      rw [FunctionDecl.lines, hblocks]
      rfl
    have hbody := reads_body (h.blocks ds hblocks) (h.labels ds hblocks) n stop
    have hbrace : " \x7b".toList = [' ', '\x7b'] := by decide
    rw [hlines, charsAt_cons, List.append_assoc, skip_text, String.toList_append,
      List.append_assoc, skip_head, hbrace]
    refine reads_function h (ends_cons.2 (by decide)) ?_
    rw [List.cons_append, List.cons_append, List.nil_append, skip_space,
      skip_of_solid (by decide), hblocks]
    exact hbody.optional

/-- The lines of the function `d` start with its head. -/
theorem exists_skip_functionLines (d : FunctionDecl) (n : Nat) :
    ∃ t, ∀ stop, skip (charsAt n d.lines ++ stop) = 'f' :: (t ++ stop) := by
  obtain ⟨s, rest, hlines⟩ : ∃ s rest, d.lines = .text 0 (d.head ++ s) :: rest := by
    unfold FunctionDecl.lines
    split
    · exact ⟨"", [], by simp⟩
    · exact ⟨" \x7b", _, rfl⟩
  have hhead : d.head.toList = 'f' :: d.head.toList.tail := by
    have htext := toList_head d []
    rw [List.append_nil] at htext
    rw [htext, List.tail_cons]
  refine ⟨d.head.toList.tail ++ (s.toList ++ '\n' :: charsAt n rest), fun stop => ?_⟩
  rw [hlines, charsAt_cons, List.append_assoc, skip_text, String.toList_append, List.append_assoc,
    skip_head, hhead]
  simp

/-- The functions `ds` of a text, in front of the brace that ends it. -/
theorem readsAll_function {ds : List FunctionDecl} (h : ∀ d ∈ ds, d.Legible) (n : Nat)
    (hstop : ∃ cs, skip stop = '\x7d' :: cs) :
    ReadsAll Grammar.function (skip (charsAt n (separate (ds.map FunctionDecl.lines)) ++ stop)) ds
      (skip stop) := by
  obtain ⟨cs, hcs⟩ := hstop
  refine readsAll_separate (fun cs => (symbol "\x7b").Fails (skip cs))
    (fun d hd stop hgood => reads_functionLines (h d hd) n hgood) (fun d hd stop => ?_)
    (fun d hd cs => ?_) ?_ ?_
  · obtain ⟨t, ht⟩ := exists_skip_functionLines d n
    have hlen := length_skip_le stop
    rw [ht, List.length_cons, List.length_append]
    omega
  · obtain ⟨t, ht⟩ := exists_skip_functionLines d n
    rw [skip_newline, ht]
    exact fails_symbol (by simp)
  · rw [hcs]
    exact fails_symbol (by simp)
  · rw [hcs]
    exact (fails_symbol (by simp)).bind

/-- **Texts are read back.**  The text of the trees `ds` is read as `ds`, if their words are
names. -/
theorem read_textOf {ds : List FunctionDecl} (h : ∀ d ∈ ds, d.Legible) :
    Source.read (textOf ds) = .ok ds := by
  have hprogram : Grammar.program.Reads (textOf ds).toList ds [] := by
    have hbrace : skip (charsAt 0 [.text 0 "\x7d"]) = ['\x7d', '\n'] := by decide
    have hmodule : "module \x7b".toList = "module".toList ++ [' ', '\x7b'] := by decide
    rw [textOf, toList_renderLines, List.cons_append, charsAt_cons, charsAt_append,
      charsAt_map_indent]
    refine (reads_blank _).bind ?_
    rw [skip_text, hmodule, List.append_assoc]
    have hword := reads_symbol "module" (' ' :: '\x7b' :: '\n' ::
      (charsAt 4 (separate (ds.map FunctionDecl.lines)) ++ charsAt 0 [.text 0 "\x7d"]))
    rw [skip_space, skip_of_solid (by decide)] at hword
    rw [show skip ("module".toList ++ ([' ', '\x7b'] ++ '\n' ::
      (charsAt 4 (separate (ds.map FunctionDecl.lines)) ++ charsAt 0 [.text 0 "\x7d"]))) =
      "module".toList ++ ([' ', '\x7b'] ++ '\n' ::
      (charsAt 4 (separate (ds.map FunctionDecl.lines)) ++ charsAt 0 [.text 0 "\x7d"])) from
      skip_of_solid (by decide)]
    refine hword.bind ((reads_char rfl _).bind ?_)
    rw [skip_newline]
    refine (readsAll_function h 4 ⟨_, hbrace⟩).many.bind ?_
    rw [hbrace]
    refine (reads_char rfl _).bind ?_
    exact reads_endOfText.bind (reads_pure _ _)
  obtain ⟨offset, hresult⟩ := hprogram 0
  unfold Source.read
  split
  · next hread => rw [hread] at hresult; cases hresult; rfl
  · next hread => rw [hread] at hresult; cases hresult

end FlowFacts.Source
