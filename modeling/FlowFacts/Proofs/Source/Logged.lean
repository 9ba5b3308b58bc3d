import FlowFacts.Log.Event
import FlowFacts.Proofs.Source.Typed

/-!
# Instructions in the log

The log writes an instruction on its own, with the names that the listing of its function ends with.
The listing writes it on the way, when some of these names have not been given yet, and behind the
lines of constants.  Both write the same.

All that an instruction mentions has a name at the end of the listing, so writing it again gives no
name and announces no constant, and one line is left (`instructionLines_naming`).  A name that was
given has stayed, so this is the line of the listing.  To say which line that is, the listing is
laid out without a state (`Program.layout`): the text of each instruction stands at its place,
behind the constants that the instruction is the first of its function to use.

## Main definitions

* `Program.introduced` — the constants that an instruction is the first to use.
* `Program.layout` — the lines of a listing, given how instructions are written.
* `Tight` — a text in one line that needs no trimming.

## Main results

* `Loaded.instructionText_eq` — an instruction is written as in its line.
* `listed_eq_flatMap` — the lines of a function, instruction by instruction.
* `logged_as_listed` — the log writes instructions as the listing does.
-/

namespace FlowFacts

open Source Grammar

/-! ### Texts without white space around them -/

/-- A text `t` in one line, with no white space at its start and its end. -/
structure Tight (t : List Char) : Prop where
  /-- It starts with something visible. -/
  first : ∃ c s, t = c :: s ∧ isWhiteSpace c = false
  /-- It ends with something visible. -/
  last : ∃ s c, t = s ++ [c] ∧ isWhiteSpace c = false
  /-- No line ends in it. -/
  line : '\n' ∉ t

variable {s t : List Char}

theorem Tight.around {m : List Char} (ht : Tight t) (hs : Tight s) (hm : '\n' ∉ m) :
    Tight (t ++ (m ++ s)) := by
  obtain ⟨c, t', ht', hc⟩ := ht.first
  obtain ⟨s', d, hs', hd⟩ := hs.last
  refine ⟨⟨c, t' ++ (m ++ s), by rw [ht']; rfl, hc⟩,
    ⟨t ++ (m ++ s'), d, by simp only [hs', List.append_assoc], hd⟩, ?_⟩
  rw [List.mem_append, List.mem_append]
  exact not_or.2 ⟨ht.line, not_or.2 ⟨hm, hs.line⟩⟩

theorem Tight.append (ht : Tight t) (hs : Tight s) : Tight (t ++ s) :=
  ht.around hs List.not_mem_nil

theorem Tight.spaced (ht : Tight t) (hs : Tight s) : Tight (t ++ ' ' :: s) :=
  ht.around hs (List.not_mem_cons_of_ne_of_not_mem (by decide) List.not_mem_nil)

/-- A text `t` without white space. -/
theorem tight_of_visible (hne : t ≠ []) (h : t.any isWhiteSpace = false) : Tight t := by
  have hvisible : ∀ c ∈ t, isWhiteSpace c = false := by simpa using h
  refine ⟨?_, ?_, fun hline => absurd (hvisible '\n' hline) (by decide)⟩
  · obtain ⟨c, s, rfl⟩ := List.exists_cons_of_ne_nil hne
    exact ⟨c, s, rfl, hvisible c List.mem_cons_self⟩
  · exact ⟨t.dropLast, t.getLast hne, (List.dropLast_append_getLast hne).symm,
      hvisible _ (List.getLast_mem hne)⟩

theorem isWhiteSpace_of_isNameChar {c : Char} (h : isNameChar c = true) :
    isWhiteSpace c = false := by
  simp only [isNameChar, isNameStart, Bool.or_eq_true, Bool.and_eq_true, decide_eq_true_eq,
    beq_iff_eq, Char.le_def, UInt32.le_iff_toNat_le] at h
  have hrange : 48 ≤ c.toNat ∧ c.toNat ≤ 122 := by
    rcases h with ((⟨hlo, hhi⟩ | ⟨hlo, hhi⟩) | rfl) | ⟨hlo, hhi⟩
    · exact ⟨Nat.le_trans (by decide) hlo, Nat.le_trans hhi (by decide)⟩
    · exact ⟨Nat.le_trans (by decide) hlo, hhi⟩
    · decide
    · exact ⟨hlo, Nat.le_trans hhi (by decide)⟩
  simp only [isWhiteSpace, Bool.or_eq_false_iff, Bool.and_eq_false_iff, decide_eq_false_iff_not,
    beq_eq_false_iff_ne]
  omega

theorem tight_name {x : String} (h : IsName x) : Tight x.toList := by
  refine tight_of_visible ?_ ?_
  · obtain ⟨first, others, hx, -⟩ := h.word
    rw [hx]
    exact List.cons_ne_nil _ _
  · rw [List.any_eq_false]
    intro c hc
    rw [isWhiteSpace_of_isNameChar (isWord_iff.1 h.isWord c hc)]
    exact Bool.false_ne_true

/-- Trimming takes off the end of the line `x` only. -/
theorem trim_line {x : String} (h : Tight x.toList) : trim (x ++ "\n") = x := by
  obtain ⟨c, s, hfirst, hc⟩ := h.first
  obtain ⟨r, d, hlast, hd⟩ := h.last
  have hstart : (x ++ "\n").toList.dropWhile isWhiteSpace = x.toList ++ ['\n'] := by
    rw [String.toList_append, hfirst]
    exact List.dropWhile_cons_of_neg (by simp [hc])
  have hend : (x.toList ++ ['\n']).reverse.dropWhile isWhiteSpace = x.toList.reverse := by
    rw [hlast, List.reverse_append, List.reverse_append]
    refine (List.dropWhile_cons_of_pos (by decide)).trans ?_
    exact List.dropWhile_cons_of_neg (by simp [hd])
  rw [trim, trimEnd, hstart, String.toList_ofList, hend, List.reverse_reverse, String.ofList_toList]

/-- Texts `xs` behind `x`, with a separator between them. -/
theorem tight_intercalate {sep x : String} {xs : List String}
    (hsep : ∀ {t s : List Char}, Tight t → Tight s → Tight (t ++ (sep.toList ++ s)))
    (h : ∀ y ∈ x :: xs, Tight y.toList) : Tight (sep.intercalate (x :: xs)).toList := by
  induction xs generalizing x with
  | nil =>
    rw [String.intercalate_singleton]
    exact h x List.mem_cons_self
  | cons y xs ih =>
    rw [List.forall_mem_cons] at h
    rw [String.intercalate_cons_cons, String.toList_append, String.toList_append, List.append_assoc]
    exact hsep h.1 (ih h.2)

/-! ### Lines of instructions -/

theorem tight_comma : Tight [','] := tight_of_visible (by simp) (by decide)

theorem tight_path {path : List String} (hne : path ≠ []) (h : ∀ x ∈ path, IsName x) :
    Tight (pathText path).toList := by
  obtain ⟨x, xs, rfl⟩ := List.exists_cons_of_ne_nil hne
  have hcolons : Tight "::".toList := tight_of_visible (by simp) (by decide)
  exact tight_intercalate (fun ht hs => ht.append (hcolons.append hs))
    fun y hy => tight_name (h y hy)

/-- A text `t`, such as a label, and what is passed behind it in parentheses. -/
theorem Tight.passing {args : List String} (ht : Tight t) (h : ∀ x ∈ args, IsName x) :
    Tight (t ++ '(' :: ((String.intercalate ", " args).toList ++ [')'])) := by
  have hopen : Tight ['('] := tight_of_visible (by simp) (by decide)
  have hclose : Tight [')'] := tight_of_visible (by simp) (by decide)
  cases args with
  | nil => exact ht.append (hopen.append hclose)
  | cons x xs =>
    have hargs : Tight (String.intercalate ", " (x :: xs)).toList :=
      tight_intercalate (fun ht hs => by simpa using (ht.append tight_comma).spaced hs)
        fun y hy => tight_name (h y hy)
    exact ht.append (hopen.append (hargs.append hclose))

/-- An operation `d` that is no constant is written tight. -/
theorem tight_operationText {d : OperationDecl} (h : d.Legible) (hconst : d.isConst = false) :
    Tight d.text.toList := by
  have hword : ∀ w : String, w ≠ "" → w.toList.any isWhiteSpace = false → Tight w.toList :=
    fun w hne hw => tight_of_visible (by simpa using hne) hw
  cases d with
  | annotate name =>
    have htight := (hword "annotate" (by decide) (by decide)).spaced (tight_name h)
    simpa [OperationDecl.text] using htight
  | not arg =>
    have htight := (hword "not" (by decide) (by decide)).spaced (tight_name h)
    simpa [OperationDecl.text] using htight
  | binary op lhs rhs =>
    have hkeyword : Tight op.keyword.toList := by
      cases op <;> exact hword _ (by decide) (by decide)
    have htight := hkeyword.spaced
      (((tight_name h.1).append tight_comma).spaced (tight_name h.2))
    simpa [OperationDecl.text] using htight
  | compare predicate lhs rhs =>
    have hkeyword : Tight predicate.keyword.toList := by
      cases predicate <;> exact hword _ (by decide) (by decide)
    have htight := (hword "cmp" (by decide) (by decide)).spaced
      (hkeyword.spaced ((tight_name h.1).spaced (tight_name h.2)))
    simpa [OperationDecl.text] using htight
  | branch label args =>
    have htight := (hword "br" (by decide) (by decide)).spaced ((tight_name h.1).passing h.2)
    simpa [OperationDecl.text] using htight
  | call path args =>
    have htight := (hword "call" (by decide) (by decide)).spaced
      ((tight_path h.1 h.2.1).passing h.2.2)
    simpa [OperationDecl.text] using htight
  | condBranch cond trueLabel trueArgs falseLabel falseArgs =>
    have htrue := (tight_name h.2.1.1).passing h.2.1.2
    have hfalse := (tight_name h.2.2.1).passing h.2.2.2
    have htight := (hword "cbr" (by decide) (by decide)).spaced
      (((tight_name h.1).append tight_comma).spaced ((htrue.append tight_comma).spaced hfalse))
    simpa [OperationDecl.text] using htight
  | const ty value => cases hconst
  | nop => exact hword "nop" (by decide) (by decide)
  | ret ty value =>
    have hty : Tight ty.text.toList := by
      cases ty <;> exact hword _ (by decide) (by decide)
    have htight := (hword "ret" (by decide) (by decide)).spaced (hty.spaced (tight_name h))
    simpa [OperationDecl.text] using htight

theorem tight_instructionText {d : InstructionDecl} (h : d.Legible)
    (hconst : d.operation.isConst = false) : Tight d.text.toList := by
  have hoperation := tight_operationText h.2 hconst
  obtain ⟨result, op⟩ := d
  cases result with
  | none => exact hoperation
  | some x =>
    have hequals : Tight ['='] := tight_of_visible (by simp) (by decide)
    have htight := (tight_name (h.1 x rfl)).spaced (hequals.spaced hoperation)
    simpa [InstructionDecl.text] using htight

namespace Program

variable {p : Program} {f : FunctionId} {b : BlockId} {v w : ValueId}

/-! ### Writing again -/

/-- At the end of the listing of `f`, its instruction `v` is written in one line and gives no
names. -/
theorem instructionLines_naming (h : p.Built) (hf : f.index < p.functions.size)
    (hdecl : (p.function f).isDeclaration = false) (hb : b ∈ (p.function f).blocks)
    (hv : v ∈ (p.block b).instructions) :
    p.instructionLines v (p.naming f) = ([p.line (p.naming f) v], p.naming f) := by
  -- what the instruction mentions, the listing has mentioned
  have hnamed : ∀ w ∈ p.mentions v, p.argument? (p.naming f).function w = none →
      w ∈ (p.naming f).named := by
    intro w hw hargument
    rw [naming_function h hf] at hargument
    refine (mem_naming_iff h hf).2 ⟨?_, hargument⟩
    rw [functionMentions, if_neg (by simp [hdecl])]
    have hblock : w ∈ p.blockMentions b :=
      List.mem_append_right _ (List.mem_flatMap.2 ⟨v, hv, hw⟩)
    exact List.mem_flatMap.2 ⟨b, hb, hblock⟩
  have hnoted : p.Noted (p.naming f) (p.naming f).named := fun _ _ => Iff.rfl
  have hspells := spells_instructionLines hnoted (h.allOperations b v hv)
  have hnodup : (p.naming f).named.Nodup := (spells_functionLines h hf).nodup List.nodup_nil
  -- so no constant is announced again
  have hconstants : p.newConstants (p.naming f).named (p.operandsOf v) = [] := by
    refine List.eq_nil_iff_forall_not_mem.2 fun c hc => ?_
    obtain ⟨hoperand, hconst, hnew⟩ := mem_newConstants_iff.1 hc
    exact hnew (hnamed c (List.mem_append_right _ hoperand) (argument?_of_constant hconst _))
  rw [hspells.unchanged hnodup hnamed, hconstants]
  rfl

theorem renderLines_line (content : String) : renderLines [.text 0 content] = content ++ "\n" := by
  refine String.toList_inj.1 ?_
  simp [renderLines, Line.render]

section

variable (h : p.Loaded) (hf : f.index < p.functions.size) (hb : b ∈ (p.function f).blocks)
  (hv : v ∈ (p.block b).instructions)

include h hf hb hv

/-- The line of `v` is written tight. -/
theorem Loaded.tight_line : Tight (p.lineDecl (p.naming f) v).text.toList := by
  obtain ⟨op, hvalue, hsettled⟩ := h.allSettled hf b hb v hv
  have hlegible : (p.lineDecl (p.naming f) v).Legible :=
    legible_lineDecl (fun g hg => h.named hg) hf (naming_function h.built hf)
      (Or.inr ⟨op, hvalue, hsettled⟩)
  refine tight_instructionText hlegible ?_
  rw [isConst_lineDecl, constant?, hvalue]
  rfl

/-- An instruction `v` is written on its own as in its line. -/
theorem Loaded.instructionText_eq : p.instructionText v = (p.lineDecl (p.naming f) v).text := by
  obtain ⟨first, last, start, stop, hregion⟩ := h.exists_region hf
  have hdecl := hregion.isDeclaration_eq_false hb hv
  obtain ⟨-, op, hvalue⟩ := h.built.instruction hv
  have hlines : ((p.instructionLines v).run (p.naming f)).1 = [p.line (p.naming f) v] :=
    congrArg Prod.fst (instructionLines_naming h.built hf hdecl hb hv)
  rw [instructionText, hvalue]
  dsimp only
  rw [hregion.owner b hb, textUnder, hlines, line, renderLines_line, trim_line]
  exact h.tight_line hf hb hv

end

/-! ### The layout of a listing -/

/-- The constants among the operands of `v` that no instruction before it in `all` uses. -/
def introduced (p : Program) (all : List ValueId) (v : ValueId) : List ValueId :=
  p.newConstants ((all.takeWhile (· ≠ v)).flatMap p.operandsOf) (p.operandsOf v)

/-- The line of a constant `c`, with its name in the listing of `f`. -/
def constantLine (p : Program) (f : FunctionId) (c : ValueId) : Line :=
  .text 0 (p.spelling (p.naming f) c ++ " = const " ++ ((p.constant? c).map Constant.text).getD "")

/-- The lines of the block `b`, where instructions are written by `write`.  Constants stand right
before the instruction that is the first of the function to use them. -/
def blockLayout (p : Program) (write : ValueId → String) (f : FunctionId) (b : BlockId) :
    List Line :=
  .text 0 ((p.block b).label ++
      parametersText ((p.ownParams b).map (p.parameterDecl (p.naming f))) ++ ":") ::
    (p.block b).instructions.flatMap fun v =>
      (p.introduced (p.instructionsOf (p.function f).blocks) v).map (p.constantLine f) ++
        [.text 0 (write v)]

/-- The lines of the function `f`, where instructions are written by `write`. -/
def functionLayout (p : Program) (write : ValueId → String) (f : FunctionId) : List Line :=
  if (p.function f).isDeclaration then [.text 0 (p.headText (p.function f))]
  else
    .text 0 (p.headText (p.function f) ++ " \x7b") ::
      (separate ((p.function f).blocks.map (p.blockLayout write f))).map (Line.indent 4) ++
        [.text 0 "\x7d"]

/-- The lines of the listing of `p`, where instructions are written by `write`. -/
def layout (p : Program) (write : ValueId → String) : List Line :=
  p.modules.toList.flatMap fun fs =>
    .text 0 "module \x7b" ::
      (separate (fs.map (p.functionLayout write))).map (Line.indent 4) ++ [.text 0 "\x7d"]

variable {all before rest seen vs : List ValueId}

/-- The constants that were `seen` are those that the instructions `before` have used. -/
def Uses (p : Program) (seen before : List ValueId) : Prop :=
  ∀ c, (p.constant? c).isSome → (c ∈ seen ↔ c ∈ before.flatMap p.operandsOf)

/-- Of what was `seen` only the constants count. -/
theorem newConstants_congr {seen' : List ValueId} {vs : List ValueId}
    (h : ∀ c, (p.constant? c).isSome → (c ∈ seen ↔ c ∈ seen')) :
    p.newConstants seen vs = p.newConstants seen' vs := by
  induction vs generalizing seen seen' with
  | nil => rfl
  | cons v vs ih =>
    rw [newConstants, newConstants]
    by_cases hv : (p.constant? v).isSome
    · have hcons : p.newConstants (v :: seen) vs = p.newConstants (v :: seen') vs := by
        refine ih fun c hc => ?_
        rw [List.mem_cons, List.mem_cons, h c hc]
      rw [hcons, ih h]
      exact if_congr (and_congr_right fun _ => not_congr (h v hv)) rfl rfl
    · rw [if_neg fun hnew => hv hnew.1, if_neg fun hnew => hv hnew.1, ih h]

/-- An instruction `v` with the constants that it introduces has used its operands. -/
theorem Uses.step (h : p.Uses seen before) (hv : (p.operation? v).isSome) :
    p.Uses (seen ++ (p.newConstants seen (p.operandsOf v) ++ [v])) (before ++ [v]) := by
  intro c hc
  rw [mem_seen_iff hc hv, constant_mem_mentions_iff hc hv, h c hc, List.flatMap_append,
    List.mem_append, List.flatMap_singleton]

/-- The lines of instructions `vs`, one after another. -/
theorem listed_eq_flatMap (hall : all.Nodup) : ∀ {before seen : List ValueId},
    all = before ++ (vs ++ rest) → p.AllOperations vs → p.Uses seen before →
      p.listed seen vs = vs.flatMap (fun v => p.introduced all v ++ [v]) ∧
      p.Uses (seen ++ p.listed seen vs) (before ++ vs) := by
  -- what is left is listed from where the constants seen are those used before
  induction vs with
  | nil =>
    intro before seen _ _ huses
    refine ⟨rfl, ?_⟩
    rwa [listed, List.append_nil, List.append_nil]
  | cons v vs ih =>
    intro before seen hsplit hvs huses
    rw [AllOperations, List.forall_mem_cons] at hvs
    have hnotMem : v ∉ before := by
      rw [hsplit] at hall
      exact fun hmem => (List.nodup_append.1 hall).2.2 v hmem v List.mem_cons_self rfl
    have hnew : p.newConstants seen (p.operandsOf v) = p.introduced all v := by
      rw [introduced, hsplit, List.cons_append, takeWhile_ne_of_notMem hnotMem]
      exact newConstants_congr huses
    obtain ⟨hlisted, hafter⟩ := ih (by rw [hsplit]; simp) hvs.2 (huses.step hvs.1)
    constructor
    · rw [listed, List.flatMap_cons, hlisted, hnew]
    · rw [listed]
      simpa only [List.append_assoc, List.singleton_append] using hafter

theorem line_eq_constantLine (hc : (p.constant? w).isSome) :
    p.line (p.naming f) w = p.constantLine f w := by
  obtain ⟨c, hc⟩ := Option.isSome_iff_exists.1 hc
  rw [line_of_constant hc, constantLine, hc]
  rfl

/-- The lines of an instruction `v` and of the constants that it introduces. -/
theorem Loaded.map_line (h : p.Loaded) (hf : f.index < p.functions.size)
    (hb : b ∈ (p.function f).blocks) (hv : v ∈ (p.block b).instructions) :
    (p.introduced all v ++ [v]).map (p.line (p.naming f)) =
      (p.introduced all v).map (p.constantLine f) ++ [.text 0 (p.instructionText v)] := by
  rw [List.map_append, List.map_singleton, h.instructionText_eq hf hb hv]
  refine congrArg (· ++ _) (List.map_congr_left fun c hc => ?_)
  exact line_eq_constantLine (constant?_of_mem_newConstants hc)

/-- The lines of the blocks `bs` are laid out. -/
theorem Loaded.lines_blockDecls (h : p.Loaded) (hf : f.index < p.functions.size)
    {bs : List BlockId} : ∀ {before seen : List ValueId}, (∀ b ∈ bs, b ∈ (p.function f).blocks) →
      p.instructionsOf (p.function f).blocks = before ++ p.instructionsOf bs → p.Uses seen before →
      (p.blockDecls (p.naming f) seen bs).map BlockDecl.lines =
        bs.map (p.blockLayout p.instructionText f) := by
  induction bs with
  | nil => exact fun _ _ _ => rfl
  | cons b bs ih =>
    intro before seen hbs hsplit huses
    rw [List.forall_mem_cons] at hbs
    rw [instructionsOf_cons] at hsplit
    obtain ⟨hlisted, hafter⟩ :=
      listed_eq_flatMap (h.nodup_instructions hf) hsplit (h.built.allOperations b) huses
    have hrest := ih hbs.2 (by rw [hsplit, List.append_assoc]) hafter
    rw [blockDecls, List.map_cons, List.map_cons, hrest]
    refine congrArg (· :: _) ?_
    have hbody : (p.listed seen (p.block b).instructions).map (p.line (p.naming f)) =
        (p.block b).instructions.flatMap fun v =>
          (p.introduced (p.instructionsOf (p.function f).blocks) v).map (p.constantLine f) ++
            [.text 0 (p.instructionText v)] := by
      rw [hlisted, List.map_flatMap]
      exact List.flatMap_congr fun v hv => h.map_line hf hbs.1 hv
    rw [BlockDecl.lines, params_blockDecl, blockLayout, ← hbody, blockDecl, List.map_map]
    rfl

/-- The lines of the function `f` are laid out. -/
theorem Loaded.functionLines_eq_layout (h : p.Loaded) (hf : f.index < p.functions.size) :
    (p.functionLines (p.function f) { function := p.function f }).1 =
      p.functionLayout p.instructionText f := by
  rw [functionLines_eq h.built hf, functionDecl, FunctionDecl.lines, functionLayout,
    headText_eq h.built hf (p.naming f)]
  cases hdecl : (p.function f).isDeclaration with
  | true => simp [functionDeclWith, hdecl]
  | false =>
    have hnone : p.Uses [] [] := fun _ _ => Iff.rfl
    have hblocks := h.lines_blockDecls hf (fun _ hb => hb) rfl hnone
    simp [functionDeclWith, hdecl, hblocks]

/-- The listing of `p` is laid out. -/
theorem Loaded.listing_eq_layout (h : p.Loaded) :
    p.listing = renderLines (p.layout p.instructionText) := by
  have hlines : ∀ f ∈ (List.range p.functions.size).map FunctionId.mk,
      ((p.functionLines (p.function f)).run { function := p.function f }).1 =
        p.functionLayout p.instructionText f := by
    intro f hf
    obtain ⟨i, hi, rfl⟩ := List.mem_map.1 hf
    exact h.functionLines_eq_layout (List.mem_range.1 hi)
  unfold listing layout moduleLines
  simp only [h.modules, List.flatMap_cons, List.flatMap_nil, List.append_nil]
  rw [List.map_congr_left hlines]

/-- The text of an instruction `v` is a single line. -/
theorem Loaded.newline_notMem (h : p.Loaded) (v : ValueId) :
    '\n' ∉ (p.instructionText v).toList := by
  cases hvalue : p.value v with
  | instruction b op =>
    have hv := h.mem_instructions hvalue
    obtain ⟨f, hbody, hb⟩ := h.exists_hasBody hv
    rw [h.instructionText_eq hbody.index_lt hb hv]
    exact (h.tight_line hbody.index_lt hb hv).line
  | parameter | constant =>
    rw [instructionText, hvalue]
    exact List.not_mem_nil

/-- Finding the names of `f` once makes no difference. -/
theorem instructionWriter_eq (p : Program) (f : FunctionId) :
    p.instructionWriter f = p.instructionText := by
  have hnaming : ∀ g, (if g = f then p.naming f else p.naming g) = p.naming g := by
    intro g
    split
    · next hg => rw [hg]
    · rfl
  funext v
  unfold instructionWriter instructionText
  dsimp only
  cases p.value v with
  | instruction b op => exact congrArg (p.textUnder · v) (hnaming _)
  | parameter | constant => rfl

end Program

open Program

/-- **The log writes instructions as the listing does.**  Take a text that is accepted.  The listing
of its program has the text of each instruction in a line at the place of the instruction, behind
the constants that the instruction is the first of its function to use.  The text is a single line,
and it is what traces and warnings have for the instruction, whichever function is analysed. -/
theorem logged_as_listed {text : String} {p : Program} (hload : Source.load text = .ok p) :
    p.listing = renderLines (p.layout p.instructionText) ∧
    (∀ v, '\n' ∉ (p.instructionText v).toList) ∧
    ∀ f, p.instructionWriter f = p.instructionText := by
  have h := Source.loaded_of_load hload
  exact ⟨h.listing_eq_layout, h.newline_notMem, p.instructionWriter_eq⟩

/-- A function with a constant that two blocks use, and with a parameter that is used before its
block is listed. -/
def earlyUseText : String :=
  "module \x7b fn f() -> bool \x7b entry(): c = const bool true br b(c) " ++
  "a(): n = and x, c ret bool n b(x: bool): annotate here br a() \x7d \x7d"

/-- The parameter has one name in its head, in the line that uses it and in the log. -/
theorem early_use_logged :
    ∃ p, Source.load earlyUseText = .ok p ∧ p.instructionWriter ⟨0⟩ ⟨3⟩ = "v1 = and v2, v0" ∧
      p.listing = renderLines (p.layout p.instructionText) := by
  obtain ⟨p, hload, hwrite⟩ : ∃ p, Source.load earlyUseText = .ok p ∧
      p.instructionWriter ⟨0⟩ ⟨3⟩ = "v1 = and v2, v0" :=
    Source.exists_load_of_map (by decide +kernel)
  exact ⟨p, hload, hwrite, (logged_as_listed hload).1⟩

end FlowFacts
