import FlowFacts.Proofs.Program.WellFormed
import FlowFacts.Proofs.Source.Resolve

/-!
# Programs, however they come about

A program comes from a text or is put together by hand, and then it does not have to pass the
check: branches may lead back to an entry, stand in a declaration, or go to a block of another
function.  What is kept by everything that can be done to a program is that branches go to blocks
of the program.  This is enough for the order of blocks, since then the walk has steps enough.

## Main definitions

* `Program.Arises` — how programs come about.
* `Program.Enclosed` — entries and branches stay inside the program.

## Main results

* `Builds.enclosed`, `Arises.enclosed` — programs are enclosed, however they come about.
* `postOrder_exact` — the order of blocks of any function.
-/

namespace FlowFacts

namespace Program

variable {p q : Program} {f : FunctionId}

/-! ### How programs come about -/

/-- A program comes from nothing or from a text, and operations of the builder may follow. -/
inductive Arises : Program → Prop
  /-- Nothing. -/
  | empty : Arises {}
  /-- A text that is accepted. -/
  | load {text : String} {p : Program} : Source.load text = .ok p → Arises p
  /-- An operation of the builder. -/
  | build {p q : Program} : Arises p → Builds p q → Arises q

/-- Entries and targets of branches are blocks of `p`. -/
structure Enclosed (p : Program) : Prop where
  /-- The targets of branches. -/
  target_lt : ∀ {v b op target}, p.value v = .instruction b op → target ∈ op.targets →
    target.block.index < p.blocks.size
  /-- The entries of functions. -/
  entry_lt : ∀ {f}, f.index < p.functions.size → (p.function f).entry.index < p.blocks.size

theorem Built.enclosed (h : p.Built) : p.Enclosed where
  target_lt := h.target_lt
  entry_lt hf := h.block_lt hf List.mem_cons_self

/-- Programs stay enclosed if instructions among `new` have targets that exist, blocks are only
added, and functions have entries. -/
theorem Enclosed.of_values (h : p.Enclosed) {new : List Value}
    (hvalues : q.values.toList = p.values.toList ++ new)
    (hnew : ∀ b op, .instruction b op ∈ new → p.Supplies op)
    (hblocks : p.blocks.size ≤ q.blocks.size)
    (hentry : ∀ f, f.index < q.functions.size → (q.function f).entry.index < q.blocks.size) :
    q.Enclosed where
  target_lt {v b op target} hv htarget := by
    rcases instruction_of_append hvalues hv with hv | ⟨-, hmem⟩
    · exact Nat.lt_of_lt_of_le (h.target_lt hv htarget) hblocks
    · exact Nat.lt_of_lt_of_le ((hnew b op hmem).target target htarget) hblocks
  entry_lt {f} hf := hentry f hf

/-- No function of `q` is new, and those that exist have the entries they had in `p`. -/
structure SameEntries (p q : Program) : Prop where
  /-- There are no new functions. -/
  size : q.functions.size = p.functions.size
  /-- Their entries stay. -/
  entry : ∀ f, (q.function f).entry = (p.function f).entry

theorem SameEntries.trans {r : Program} (h : SameEntries p q) (h' : SameEntries q r) :
    SameEntries p r :=
  ⟨h'.size.trans h.size, fun f => (h'.entry f).trans (h.entry f)⟩

theorem sameEntries_of_functions (h : q.functions = p.functions) : SameEntries p q :=
  ⟨congrArg Array.size h, fun f => by rw [function, function, h]⟩

theorem sameEntries_modifyFunction (p : Program) (f : FunctionId) {change : Function → Function}
    (hchange : ∀ fn, (change fn).entry = fn.entry) :
    SameEntries p (modifyFunction f change p).2 where
  size := Array.size_modify
  entry g := by
    rw [function_modify]
    split
    · next h => rw [h.1, hchange]
    · rfl

theorem sameEntries_uniqueLabel (p : Program) (f : FunctionId) (hint : Option String) :
    SameEntries p (uniqueLabel f hint p).2 :=
  sameEntries_modifyFunction p f fun _ => rfl

theorem sameEntries_addBlock (p : Program) (f : FunctionId) (hint : Option String) :
    SameEntries p (addBlock f hint p).2 := by
  have hlabel := sameEntries_uniqueLabel p f hint
  have hpush : SameEntries (uniqueLabel f hint p).2 { (uniqueLabel f hint p).2 with
      blocks := (uniqueLabel f hint p).2.blocks.push
        { label := (uniqueLabel f hint p).1, function := f } } :=
    sameEntries_of_functions rfl
  exact hlabel.trans (hpush.trans (sameEntries_modifyFunction _ f fun _ => rfl))

/-- The entry of `f` is found where there are no fewer blocks. -/
theorem Enclosed.entry_of_sameEntries (h : p.Enclosed) (hsame : SameEntries p q)
    (hblocks : p.blocks.size ≤ q.blocks.size) (f : FunctionId) (hf : f.index < q.functions.size) :
    (q.function f).entry.index < q.blocks.size := by
  rw [hsame.entry]
  exact Nat.lt_of_lt_of_le (h.entry_lt (hsame.size ▸ hf)) hblocks

/-- The values `new` are added, and everything else stays. -/
theorem Enclosed.added (h : p.Enclosed) {new : List Value} {P I : BlockId → List ValueId}
    (hadded : Added p q new P I) (hnew : ∀ b op, .instruction b op ∈ new → p.Supplies op) :
    q.Enclosed :=
  h.of_values hadded.values hnew (Nat.le_of_eq hadded.size.symm)
    (h.entry_of_sameEntries (sameEntries_of_functions hadded.functions)
      (Nat.le_of_eq hadded.size.symm))

/-- Blocks are added, and the values stay. -/
theorem Enclosed.blocks (h : p.Enclosed) (hvalues : q.values = p.values)
    (hsame : SameEntries p q) (hblocks : p.blocks.size ≤ q.blocks.size) : q.Enclosed := by
  have hnil : q.values.toList = p.values.toList ++ [] := by rw [hvalues, List.append_nil]
  exact h.of_values hnil (fun _ _ hmem => absurd hmem List.not_mem_nil) hblocks
    (h.entry_of_sameEntries hsame hblocks)

/-- No operation of the builder leads out of the program. -/
theorem Builds.enclosed (h : Builds p q) (hp : p.Enclosed) : q.Enclosed := by
  cases h with
  | addModule => exact hp.blocks rfl (sameEntries_of_functions rfl) (Nat.le_refl _)
  | addFunction m path args returnType isDeclaration =>
    have hnew := (newFunction_addFunction p m path args returnType isDeclaration).2
    refine hp.of_values hnew.values (fun _ _ hmem => absurd hmem not_mem_paramValues)
      (by rw [hnew.blocks]; exact Nat.le_succ _) fun f hf => ?_
    rw [hnew.blocks]
    by_cases hlt : f.index < p.functions.size
    · rw [hnew.other f hlt]
      exact Nat.lt_succ_of_lt (hp.entry_lt hlt)
    · -- the entry of the new function is the new block
      have hindex : f.index = p.functions.size := by
        rw [hnew.size] at hf
        omega
      obtain rfl : f = ⟨p.functions.size⟩ := by
        cases f
        exact congrArg FunctionId.mk hindex
      rw [hnew.function]
      exact Nat.lt_succ_self _
  | addBlock f hint =>
    refine hp.blocks rfl (sameEntries_addBlock p f hint) ?_
    change _ ≤ (p.blocks.push _).size
    rw [Array.size_push]
    exact Nat.le_succ _
  | looseBlock f label =>
    refine hp.blocks rfl (sameEntries_of_functions rfl) ?_
    rw [Array.size_push]
    exact Nat.le_succ _
  | uniqueLabel f hint => exact hp.blocks rfl (sameEntries_uniqueLabel p f hint) (Nat.le_refl _)
  | addParameter b ty =>
    refine hp.added (added_addParameter p b ty) fun _ _ hmem => ?_
    cases List.mem_singleton.1 hmem
  | addPred b source =>
    exact hp.blocks rfl (sameEntries_of_functions rfl) (grown_modifyBlock p b _).blocks
  | append b op hb hop =>
    refine hp.added (added_append p b op).2 fun _ _ hmem => ?_
    cases List.mem_singleton.1 hmem
    exact hop
  | addValue x hx =>
    refine hp.added (added_addValue p x) fun _ _ hmem => ?_
    cases List.mem_singleton.1 hmem
    exact hx.2

theorem Arises.enclosed (h : p.Arises) : p.Enclosed := by
  induction h with
  | empty => exact built_empty.enclosed
  | load h => exact (Source.built_and_valid_of_load h).1.enclosed
  | build _ hstep ih => exact hstep.enclosed ih

theorem Enclosed.closed (h : p.Enclosed) (hf : f.index < p.functions.size) : p.Closed f where
  entry := h.entry_lt hf
  edges hedge := by
    obtain ⟨target, htarget, rfl⟩ := hedge
    -- an edge comes from a terminator, which is an instruction of the program
    obtain ⟨op, hterm, hmem⟩ := mem_successors_iff.1 htarget
    obtain ⟨v, -, hop, -⟩ := terminator?_eq_some hterm
    obtain ⟨b, hv⟩ := operation?_eq_some_iff.1 hop
    exact h.target_lt hv hmem

end Program

open Program

/-- **Post-order is right for every function.**  Take a function of a program, however the program
came about.  The blocks in post-order are those that the entry reaches, each once.  The number of a
block and the block with a number are inverse to each other, and exactly the blocks that are reached
have one.  In reverse post-order the entry comes first, and an edge to a block that does not come
later closes a cycle. -/
theorem postOrder_exact {p : Program} {f : FunctionId} (h : p.Arises)
    (hf : f.index < p.functions.size) :
    (∀ b, b ∈ (p.postOrder f).blocks ↔ p.Reaches (p.function f).entry b) ∧
    (p.postOrder f).blocks.Nodup ∧
    (∀ b n, (p.postOrder f).number? b = some n ↔ (p.postOrder f).block? n = some b) ∧
    (∀ b, (p.postOrder f).contains b = true ↔ p.Reaches (p.function f).entry b) ∧
    (p.reversePostOrder f)[0]? = some (p.function f).entry ∧
    ∀ (b c : BlockId) (i j : Nat), p.Edge b c → (p.reversePostOrder f)[i]? = some b →
      (p.reversePostOrder f)[j]? = some c → j ≤ i → p.Reaches c b := by
  have hclosed := h.enclosed.closed hf
  have hmem : ∀ b, b ∈ (p.postOrder f).blocks ↔ p.Reaches (p.function f).entry b := fun b => by
    rw [← mem_reversePostOrder_iff hclosed, reversePostOrder, List.mem_reverse]
  refine ⟨hmem, nodup_postOrder hclosed, fun b n => number?_eq_some_iff hclosed, fun b => ?_, ?_,
    fun b c i j hedge hb hc hle => reaches_of_position_le hclosed hedge hb hc hle⟩
  · rw [← hmem, PostOrder.contains, Option.isSome_iff_exists, List.mem_iff_getElem?]
    exact exists_congr fun n => number?_eq_some_iff hclosed
  · rw [← List.head?_eq_getElem?]
    exact head?_reversePostOrder hclosed

/-- A function whose entry branches twice to a block that branches back to it or on to a block that
branches to itself.  Nothing branches to its last block. -/
def circling : Program :=
  let p := (addModule {}).2
  let p := (addFunction ⟨0⟩ ["f"] [("x", .bool)] .bool false p).2
  let p := (addBlock ⟨0⟩ none p).2
  let p := (addBlock ⟨0⟩ none p).2
  let p := (addBlock ⟨0⟩ none p).2
  let p := (append ⟨0⟩ (.condBranch ⟨0⟩ ⟨⟨1⟩, []⟩ ⟨⟨1⟩, []⟩) p).2
  let p := (append ⟨1⟩ (.condBranch ⟨0⟩ ⟨⟨0⟩, [⟨0⟩]⟩ ⟨⟨2⟩, []⟩) p).2
  let p := (append ⟨2⟩ (.branch ⟨⟨2⟩, []⟩) p).2
  (append ⟨3⟩ (.branch ⟨⟨1⟩, []⟩) p).2

theorem arises_circling : circling.Arises := by
  have h := Arises.empty.build (.addModule {})
  replace h := h.build (.addFunction ⟨0⟩ ["f"] [("x", .bool)] .bool false (by decide))
  replace h := h.build (.addBlock ⟨0⟩ none (by decide))
  replace h := h.build (.addBlock ⟨0⟩ none (by decide))
  replace h := h.build (.addBlock ⟨0⟩ none (by decide))
  replace h := h.build (.append ⟨0⟩ (.condBranch ⟨0⟩ ⟨⟨1⟩, []⟩ ⟨⟨1⟩, []⟩) (by decide)
    ⟨by decide, by decide, nofun⟩)
  replace h := h.build (.append ⟨1⟩ (.condBranch ⟨0⟩ ⟨⟨0⟩, [⟨0⟩]⟩ ⟨⟨2⟩, []⟩) (by decide)
    ⟨by decide, by decide, nofun⟩)
  replace h := h.build (.append ⟨2⟩ (.branch ⟨⟨2⟩, []⟩) (by decide) ⟨by decide, by decide, nofun⟩)
  exact h.build (.append ⟨3⟩ (.branch ⟨⟨1⟩, []⟩) (by decide) ⟨by decide, by decide, nofun⟩)

/-- Three blocks are numbered.  The edge back to the entry closes a cycle, and the last block is not
reached. -/
theorem postOrder_circling : circling.Arises ∧
    circling.postOrder ⟨0⟩ =
      { blocks := [⟨2⟩, ⟨1⟩, ⟨0⟩], numbers := [(⟨0⟩, 2), (⟨1⟩, 1), (⟨2⟩, 0)] } ∧
    circling.Reaches ⟨0⟩ ⟨1⟩ ∧ ¬ circling.Reaches ⟨0⟩ ⟨3⟩ := by
  have hexact := postOrder_exact arises_circling (show (⟨0⟩ : FunctionId).index < _ by decide)
  have hback : circling.Edge ⟨1⟩ ⟨0⟩ := ⟨⟨⟨0⟩, [⟨0⟩]⟩, by decide +kernel, rfl⟩
  have hlast := hexact.2.2.2.1 ⟨3⟩
  refine ⟨arises_circling, by decide +kernel, ?_, fun h => ?_⟩
  · exact hexact.2.2.2.2.2 ⟨1⟩ ⟨0⟩ 1 0 hback (by decide +kernel) (by decide +kernel) (by decide)
  · exact absurd (hlast.2 h) (by decide +kernel)

end FlowFacts
