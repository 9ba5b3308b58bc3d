import FlowFacts.Proofs.Source.Arises
import FlowFacts.Proofs.Source.Region

/-!
# Labels stay unique

A label that is taken is lengthened by the next number, and what comes out may be taken again, as
anybody may ask for `a0` or `block1`.  But each candidate is longer than the one before it, so the
labels of the function that are at least as long become fewer, and the search ends.

What it finds is the label of no block of the function.  So a function whose blocks have different
labels keeps this property, whatever is built.

## Main definitions

* `Program.Lengthens`, `Program.FindsLabel` — the search for a label, without a bound.
* `Program.Labelled` — the blocks of each function have different labels.

## Main results

* `lengthens_freeLabel` — the search ends within the bound that it is given.
* `Builds.labelled` — operations of the builder keep labels different.
* `labels_stay_unique` — new labels are new, and all labels of a function are different.
-/

namespace FlowFacts

namespace Program

variable {p q r : Program} {f g : FunctionId} {hint : Option String} {taken : List String}
  {label result : String} {next last : Nat}

/-! ### The search for a label -/

/-- A label is lengthened by one number after another as long as it is among those `taken`.  This
ends with a label, and a number to go on from. -/
inductive Lengthens (taken : List String) : String → Nat → String → Nat → Prop
  /-- A label that is not taken is the result. -/
  | free {label : String} {next : Nat} : label ∉ taken → Lengthens taken label next label next
  /-- A label that is taken gets the next number. -/
  | longer {label result : String} {next last : Nat} : label ∈ taken →
      Lengthens taken (label ++ toString next) (next + 1) result last →
      Lengthens taken label next result last

/-- The search for a label of a new block of `f`: it starts with the hint, if there is one. -/
inductive FindsLabel (p : Program) (f : FunctionId) : Option String → String → Nat → Prop
  /-- The hint is lengthened. -/
  | hinted {hint label : String} {last : Nat} :
      Lengthens (p.labels f) hint (p.function f).nextLabel label last →
      FindsLabel p f (some hint) label last
  /-- The word `block` with the next number is lengthened. -/
  | unhinted {label : String} {last : Nat} :
      Lengthens (p.labels f) ("block" ++ toString (p.function f).nextLabel)
        ((p.function f).nextLabel + 1) label last →
      FindsLabel p f none label last

theorem Lengthens.notMem (h : Lengthens taken label next result last) : result ∉ taken := by
  induction h with
  | free hfree => exact hfree
  | longer _ _ ih => exact ih

/-- A `label` that is not taken stays. -/
theorem Lengthens.eq_of_notMem (h : Lengthens taken label next result last)
    (hfree : label ∉ taken) : result = label := by
  cases h with
  | free _ => rfl
  | longer hmem _ => exact absurd hmem hfree

theorem FindsLabel.notMem (h : p.FindsLabel f hint label last) : label ∉ p.labels f := by
  cases h with
  | hinted h | unhinted h => exact h.notMem

/-! ### The search ends -/

/-- The number of labels `taken` that are at least as long as `label`. -/
def rivals (taken : List String) (label : String) : Nat :=
  (taken.filter fun l => label.length ≤ l.length).length

theorem length_lt_append_toString (label : String) (n : Nat) :
    label.length < (label ++ toString n).length := by
  have hne : (toString n).toList ≠ [] := by
    rw [show toString n = n.repr from rfl, Nat.toList_repr]
    exact Nat.toDigits_ne_nil
  have hpos := List.length_pos_iff.2 hne
  rw [String.length_toList] at hpos
  rw [String.length_append]
  omega

/-- A `label` that is taken is one of its own rivals, but not one of any longer label. -/
theorem rivals_lt {longer : String} (hmem : label ∈ taken) (hlt : label.length < longer.length) :
    rivals taken longer < rivals taken label := by
  have hfilter : (taken.filter fun l => longer.length ≤ l.length) =
      (taken.filter fun l => label.length ≤ l.length).filter fun l => longer.length ≤ l.length := by
    rw [List.filter_filter]
    refine List.filter_congr fun l _ => ?_
    rw [Bool.eq_iff_iff, Bool.and_eq_true, decide_eq_true_iff, decide_eq_true_iff]
    omega
  rw [rivals, rivals, hfilter, List.length_filter_lt_length_iff_exists]
  refine ⟨label, List.mem_filter.2 ⟨hmem, ?_⟩, ?_⟩
  · exact decide_eq_true (Nat.le_refl _)
  · rw [decide_eq_true_iff]
    omega

theorem notMem_of_rivals_eq_zero (h : rivals taken label = 0) : label ∉ taken := by
  intro hmem
  have hnil := List.length_eq_zero_iff.1 h
  have hself : label ∈ taken.filter fun l => label.length ≤ l.length :=
    List.mem_filter.2 ⟨hmem, decide_eq_true (Nat.le_refl _)⟩
  rw [hnil] at hself
  cases hself

/-- The search ends within `n` steps if a label has no more than `n` rivals. -/
theorem lengthens_freeLabel : ∀ {n : Nat} {label : String} {next : Nat}, rivals taken label ≤ n →
    Lengthens taken label next (freeLabel taken n label next).1
      (freeLabel taken n label next).2 := by
  intro n
  induction n with
  | zero =>
    intro label next hn
    exact .free (notMem_of_rivals_eq_zero (Nat.le_zero.1 hn))
  | succ n ih =>
    intro label next hn
    rw [freeLabel]
    split
    · next hmem =>
      have hfewer := rivals_lt hmem (length_lt_append_toString label next)
      exact .longer hmem (ih (by omega))
    · next hfree => exact .free hfree

theorem rivals_le_length (taken : List String) (label : String) :
    rivals taken label ≤ taken.length :=
  List.length_filter_le _ _

/-- A label is found for every function `f` and every `hint`, and the number to go on from is
kept. -/
theorem exists_findsLabel (p : Program) (f : FunctionId) (hint : Option String) :
    ∃ label last, p.FindsLabel f hint label last ∧ uniqueLabel f hint p =
      (label, (modifyFunction f (fun fn => { fn with nextLabel := last }) p).2) := by
  cases hint with
  | none => exact ⟨_, _, .unhinted (lengthens_freeLabel (rivals_le_length _ _)), rfl⟩
  | some hint => exact ⟨_, _, .hinted (lengthens_freeLabel (rivals_le_length _ _)), rfl⟩

/-! ### Labels of functions -/

/-- The blocks of each function are blocks of `p`, with different labels. -/
structure Labelled (p : Program) : Prop where
  /-- The blocks exist. -/
  block_lt : ∀ {f b}, f.index < p.functions.size → b ∈ (p.function f).blocks →
    b.index < p.blocks.size
  /-- Their labels are different. -/
  nodup : ∀ {f}, f.index < p.functions.size → (p.labels f).Nodup

/-- The functions of `q` have the blocks they had in `p`, with the labels that these had. -/
structure KeepsLabels (p q : Program) : Prop where
  /-- There are no new functions. -/
  size : q.functions.size = p.functions.size
  /-- No block is lost. -/
  blocks_le : p.blocks.size ≤ q.blocks.size
  /-- The functions have the same blocks. -/
  blocks : ∀ f, (q.function f).blocks = (p.function f).blocks
  /-- The blocks have the same labels. -/
  label : ∀ b, b.index < p.blocks.size → (q.block b).label = (p.block b).label

theorem labels_eq_of_blocks (hblocks : (q.function g).blocks = (p.function f).blocks)
    (hlabel : ∀ b ∈ (p.function f).blocks, (q.block b).label = (p.block b).label) :
    q.labels g = p.labels f := by
  rw [labels, labels, hblocks]
  exact List.map_congr_left hlabel

theorem KeepsLabels.trans (h₁ : KeepsLabels p q) (h₂ : KeepsLabels q r) : KeepsLabels p r where
  size := h₂.size.trans h₁.size
  blocks_le := Nat.le_trans h₁.blocks_le h₂.blocks_le
  blocks f := (h₂.blocks f).trans (h₁.blocks f)
  label b hb := (h₂.label b (Nat.lt_of_lt_of_le hb h₁.blocks_le)).trans (h₁.label b hb)

theorem KeepsLabels.labels_eq (h : KeepsLabels p q) (hp : p.Labelled)
    (hf : f.index < p.functions.size) : q.labels f = p.labels f :=
  labels_eq_of_blocks (h.blocks f) fun b hb => h.label b (hp.block_lt hf hb)

theorem KeepsLabels.labelled (h : KeepsLabels p q) (hp : p.Labelled) : q.Labelled where
  block_lt {f b} hf hb := by
    rw [h.size] at hf
    rw [h.blocks] at hb
    exact Nat.lt_of_lt_of_le (hp.block_lt hf hb) h.blocks_le
  nodup {f} hf := by
    rw [h.size] at hf
    rw [h.labels_eq hp hf]
    exact hp.nodup hf

theorem Added.keepsLabels {new : List Value} {P I : BlockId → List ValueId}
    (h : Added p q new P I) : KeepsLabels p q where
  size := congrArg Array.size h.functions
  blocks_le := Nat.le_of_eq h.size.symm
  blocks f := by rw [Program.function, Program.function, h.functions]
  label b _ := h.label b

theorem keepsLabels_modifyFunction (p : Program) (f : FunctionId) {change : Function → Function}
    (hchange : ∀ fn, (change fn).blocks = fn.blocks) :
    KeepsLabels p (modifyFunction f change p).2 where
  size := Array.size_modify
  blocks_le := Nat.le_refl _
  blocks g := by
    rw [function_modify]
    split
    · next hg => rw [hg.1, hchange]
    · rfl
  label _ _ := rfl

theorem keepsLabels_uniqueLabel (p : Program) (f : FunctionId) (hint : Option String) :
    KeepsLabels p (uniqueLabel f hint p).2 := by
  obtain ⟨label, last, -, heq⟩ := exists_findsLabel p f hint
  rw [heq]
  exact keepsLabels_modifyFunction p f fun _ => rfl

theorem keepsLabels_pushBlock (p : Program) (x : Block) :
    KeepsLabels p { p with blocks := p.blocks.push x } where
  size := rfl
  blocks_le := by simp
  blocks _ := rfl
  label b hb := by rw [block_push, if_neg (Nat.ne_of_lt hb)]

theorem keepsLabels_addPred (p : Program) (b source : BlockId) :
    KeepsLabels p (addPred b source p).2 where
  size := rfl
  blocks_le := (grown_modifyBlock p b _).blocks
  blocks _ := rfl
  label c _ := by
    unfold addPred
    rw [block_modify]
    split
    · next hc =>
      rw [hc.1]
      split
      · rfl
      · rfl
    · rfl

/-! ### New blocks and functions -/

/-- A new block is the last one of `f`, and has the label that was found.  The labels of the
other functions stay. -/
theorem addBlock_labels (hp : p.Labelled) (hf : f.index < p.functions.size)
    (hint : Option String) :
    (addBlock f hint p).2.labels f = p.labels f ++ [(uniqueLabel f hint p).1] ∧
      (∀ g, g.index < p.functions.size → g ≠ f → (addBlock f hint p).2.labels g = p.labels g) ∧
      (addBlock f hint p).2.functions.size = p.functions.size ∧
      ∀ g, g.index < p.functions.size → ∀ b ∈ ((addBlock f hint p).2.function g).blocks,
        b.index < (addBlock f hint p).2.blocks.size := by
  let p₁ := (uniqueLabel f hint p).2
  let x : Block := { label := (uniqueLabel f hint p).1, function := f }
  let p₂ : Program := { p₁ with blocks := p₁.blocks.push x }
  let b : BlockId := ⟨p₁.blocks.size⟩
  let change : Function → Function := fun fn => { fn with others := fn.others ++ [b] }
  have hresult : (addBlock f hint p).2 = (modifyFunction f change p₂).2 := rfl
  -- up to here the functions have the labels they had
  have hkept : KeepsLabels p p₂ :=
    (keepsLabels_uniqueLabel p f hint).trans (keepsLabels_pushBlock p₁ x)
  have hnew : (p₂.block b).label = (uniqueLabel f hint p).1 := by
    rw [block_push, if_pos rfl]
  have hsame : (modifyFunction f change p₂).2.function f = change (p₂.function f) := by
    rw [function_modify, if_pos ⟨rfl, hkept.size.symm ▸ hf⟩]
  have hother : ∀ g, g ≠ f → (modifyFunction f change p₂).2.function g = p₂.function g := by
    intro g hg
    rw [function_modify, if_neg fun h => hg h.1]
  rw [hresult]
  refine ⟨?_, fun g hg hne => ?_, Array.size_modify.trans hkept.size, fun g hg c hc => ?_⟩
  · have hblocks : (change (p₂.function f)).blocks = (p₂.function f).blocks ++ [b] := rfl
    rw [labels, hsame, hblocks, List.map_append, List.map_singleton]
    exact congrArg₂ (fun xs y => xs ++ [y]) (hkept.labels_eq hp hf) hnew
  · rw [labels, hother g hne]
    exact hkept.labels_eq hp hg
  · have hlt : ∀ c ∈ (p₂.function g).blocks, c.index < p₂.blocks.size := fun c hc =>
      (hkept.labelled hp).block_lt (hkept.size.symm ▸ hg) hc
    by_cases hgf : g = f
    · subst hgf
      rw [hsame] at hc
      rcases List.mem_append.1 (show c ∈ (p₂.function g).blocks ++ [b] from hc) with hc | hc
      · exact hlt c hc
      · rw [List.mem_singleton.1 hc]
        change p₁.blocks.size < (p₁.blocks.push x).size
        rw [Array.size_push]
        exact Nat.lt_succ_self _
    · rw [hother g hgf] at hc
      exact hlt c hc

theorem Labelled.addBlock (hp : p.Labelled) (hf : f.index < p.functions.size)
    (hint : Option String) : (Program.addBlock f hint p).2.Labelled := by
  obtain ⟨hlabels, hothers, hsize, hlt⟩ := addBlock_labels hp hf hint
  refine ⟨fun {g b} hg hb => hlt g (hsize ▸ hg) b hb, fun {g} hg => ?_⟩
  rw [hsize] at hg
  by_cases hgf : g = f
  · subst hgf
    -- the label that is added was found, so no block has it
    obtain ⟨label, last, hfinds, heq⟩ := exists_findsLabel p g hint
    rw [hlabels, heq, List.nodup_append]
    refine ⟨hp.nodup hg, List.nodup_singleton _, fun l hl m hm => ?_⟩
    rw [List.mem_singleton.1 hm]
    rintro rfl
    exact hfinds.notMem hl
  · rw [hothers g hg hgf]
    exact hp.nodup hg

/-- A new function has one block. -/
theorem Labelled.addFunction (hp : p.Labelled) (m : ModuleId) (path : List String)
    (args : List (String × Ty)) (returnType : Ty) (isDeclaration : Bool) :
    (Program.addFunction m path args returnType isDeclaration p).2.Labelled := by
  have hnew := (newFunction_addFunction p m path args returnType isDeclaration).2
  generalize (Program.addFunction m path args returnType isDeclaration p).2 = q at hnew
  have hcases : ∀ {f : FunctionId}, f.index < q.functions.size →
      f.index < p.functions.size ∨ f = ⟨p.functions.size⟩ := by
    intro f hf
    rw [hnew.size] at hf
    by_cases hlt : f.index < p.functions.size
    · exact Or.inl hlt
    · have hindex : f.index = p.functions.size := by omega
      right
      cases f
      exact congrArg FunctionId.mk hindex
  refine ⟨fun {f b} hf hb => ?_, fun {f} hf => ?_⟩
  · rw [hnew.blocks]
    rcases hcases hf with hlt | rfl
    · rw [hnew.other f hlt] at hb
      exact Nat.lt_succ_of_lt (hp.block_lt hlt hb)
    · rw [hnew.function] at hb
      rw [List.mem_singleton.1 hb]
      exact Nat.lt_succ_self _
  · rcases hcases hf with hlt | rfl
    · have hlabels : q.labels f = p.labels f := by
        refine labels_eq_of_blocks (by rw [hnew.other f hlt]) fun b hb => ?_
        exact (eq_of_parts (hnew.block b (hp.block_lt hlt hb))).1
      rw [hlabels]
      exact hp.nodup hlt
    · rw [labels, hnew.function]
      exact List.nodup_singleton _

/-! ### Whatever is built -/

/-- Operations of the builder keep the labels of each function different. -/
theorem Builds.labelled (h : Builds p q) (hp : p.Labelled) : q.Labelled := by
  cases h with
  | addModule => exact ⟨hp.block_lt, hp.nodup⟩
  | addFunction m path args returnType isDeclaration => exact hp.addFunction m path args _ _
  | addBlock f hint hf => exact hp.addBlock hf hint
  | looseBlock f label => exact (keepsLabels_pushBlock p _).labelled hp
  | uniqueLabel f hint => exact (keepsLabels_uniqueLabel p f hint).labelled hp
  | addParameter b ty => exact (added_addParameter p b ty).keepsLabels.labelled hp
  | addPred b source => exact (keepsLabels_addPred p b source).labelled hp
  | append b op => exact (added_append p b op).2.keepsLabels.labelled hp
  | addValue x => exact (added_addValue p x).keepsLabels.labelled hp

theorem Arises.labelled (h : p.Arises) : p.Labelled := by
  induction h with
  | empty => exact ⟨built_empty.block_lt, fun hf => absurd hf (Nat.not_lt_zero _)⟩
  | load h =>
    obtain ⟨vs, bs, -, -, -, -, hregion⟩ := Source.regions_of_load h
    exact ⟨(Source.built_and_valid_of_load h).1.block_lt, fun hf => (hregion _ hf).labels⟩
  | build _ hstep ih => exact hstep.labelled ih

end Program

open Program

variable {p : Program} {f : FunctionId}

/-- **Labels stay unique.**  Take a function of a program that comes from nothing or a text by any
operations of the builder.  Its blocks have different labels.  Asking for a label, with or without
a hint, ends with one that no block of the function has, and this is the hint if no block has that.
A new block gets this label, and the others keep theirs. -/
theorem labels_stay_unique (h : p.Arises) (hf : f.index < p.functions.size) :
    (p.labels f).Nodup ∧
    ∀ hint : Option String, ∃ label last,
      p.FindsLabel f hint label last ∧
      uniqueLabel f hint p =
        (label, (modifyFunction f (fun fn => { fn with nextLabel := last }) p).2) ∧
      label ∉ p.labels f ∧
      (∀ wanted, hint = some wanted → wanted ∉ p.labels f → label = wanted) ∧
      (addBlock f hint p).2.labels f = p.labels f ++ [label] ∧
      ((addBlock f hint p).2.labels f).Nodup := by
  have hp := h.labelled
  refine ⟨hp.nodup hf, fun hint => ?_⟩
  obtain ⟨label, last, hfinds, heq⟩ := exists_findsLabel p f hint
  have hlabels := (addBlock_labels hp hf hint).1
  have hsize := (addBlock_labels hp hf hint).2.2.1
  refine ⟨label, last, hfinds, heq, hfinds.notMem, ?_, ?_, ?_⟩
  · rintro wanted rfl hfree
    cases hfinds with
    | hinted hlonger => exact hlonger.eq_of_notMem hfree
  · rw [hlabels, heq]
  · exact (hp.addBlock hf hint).nodup (hsize.symm ▸ hf)

/-- A function with blocks that have labels like those that are generated. -/
def crowded : Program :=
  let p := (addModule {}).2
  let p := (addFunction ⟨0⟩ ["f"] [] .unit false p).2
  let p := (addBlock ⟨0⟩ (some "a") p).2
  let p := (addBlock ⟨0⟩ (some "a0") p).2
  (addBlock ⟨0⟩ (some "block0") p).2

theorem arises_crowded : crowded.Arises := by
  have h := Arises.empty.build (.addModule {})
  replace h := h.build (.addFunction ⟨0⟩ ["f"] [] .unit false (by decide))
  replace h := h.build (.addBlock ⟨0⟩ (some "a") (by decide))
  replace h := h.build (.addBlock ⟨0⟩ (some "a0") (by decide))
  exact h.build (.addBlock ⟨0⟩ (some "block0") (by decide))

/-- A second block `a` cannot be called `a0` either, nor can one without a name be called
`block0`. -/
theorem crowded_labels_found : crowded.Arises ∧
    crowded.labels ⟨0⟩ = ["entry", "a", "a0", "block0"] ∧
    (∃ last, crowded.FindsLabel ⟨0⟩ (some "a") "a01" last) ∧
    (∃ last, crowded.FindsLabel ⟨0⟩ none "block01" last) ∧
    (addBlock ⟨0⟩ (some "a") crowded).2.labels ⟨0⟩ = ["entry", "a", "a0", "block0", "a01"] ∧
    (uniqueLabel ⟨0⟩ (some "b") crowded).1 = "b" := by
  have hlabels : crowded.labels ⟨0⟩ = ["entry", "a", "a0", "block0"] := by decide +kernel
  obtain ⟨-, hfound⟩ :=
    labels_stay_unique arises_crowded (show (⟨0⟩ : FunctionId).index < _ by decide)
  obtain ⟨label, last, hfinds, heq, -, -, hadded, -⟩ := hfound (some "a")
  obtain ⟨label', last', hfinds', heq', -⟩ := hfound none
  obtain ⟨label'', last'', -, heq'', -, hkept, -⟩ := hfound (some "b")
  have hlabel : (uniqueLabel ⟨0⟩ (some "a") crowded).1 = "a01" := by decide +kernel
  have hlabel' : (uniqueLabel ⟨0⟩ none crowded).1 = "block01" := by decide +kernel
  rw [heq] at hlabel
  rw [heq'] at hlabel'
  refine ⟨arises_crowded, hlabels, ⟨last, hlabel ▸ hfinds⟩, ⟨last', hlabel' ▸ hfinds'⟩, ?_, ?_⟩
  · rw [hadded, hlabels]
    exact congrArg (["entry", "a", "a0", "block0"] ++ [·]) hlabel
  · rw [heq'']
    exact hkept "b" rfl (by rw [hlabels]; decide)

end FlowFacts
