import FlowFacts.Proofs.Source.Local
import FlowFacts.Proofs.Source.Relisted

/-!
# The values of a listing

Which values of a program a listing creates, and which of them the names of operands stand for.
The values of all functions, the parameters of each before its lines, are the values of the
program without the constants that no instruction uses (`mem_recreatedUpTo_iff`), each once.  An
operand is created before the line that uses it.  Its name stands for it there exactly if its own
line gives it the name and, in case it is an argument, no other value has got that name before
(`lookup_told_iff`).

## Main definitions

* `Program.Loaded` — what is known of a program that was loaded.
* `Program.linesOf`, `Program.recreated`, `Program.recreatedUpTo` — the values of a listing.
* `Program.Told` — the name of a value stands for it.

## Main results

* `mem_of_operand` — operands are created before.
* `nodup_recreatedUpTo`, `mem_recreatedUpTo_iff` — the values are created once.
* `lookup_told_iff` — which names stand for their values.
-/

namespace FlowFacts

open Source

/-! ### Programs that were loaded -/

/-- What is known of a program `p` that was loaded. -/
structure Program.Loaded (p : Program) : Prop where
  /-- Its parts fit together. -/
  built : p.Built
  /-- It has passed the check. -/
  valid : p.Valid
  /-- It consists of the regions of its functions. -/
  regions : p.Regions p.functions.size
  /-- The functions are those of one module, in order. -/
  modules : p.modules = #[(List.range p.functions.size).map FunctionId.mk]
  /-- Predecessors branch to the block. -/
  preds : ∀ b c, b ∈ (p.block c).preds →
    ∃ op, .instruction b op ∈ p.values.toList ∧ ∃ target ∈ op.targets, target.block = c

namespace Source

variable {functions ds : List FunctionDecl} {p : Program}

theorem modules_of_resolved (h : Resolved functions ds p) :
    p.modules = #[(List.range p.functions.size).map FunctionId.mk] := by
  induction h with
  | nil => rfl
  | snoc _ _ hread ih =>
    rw [hread.modules, ih, hread.size, List.range_succ, List.map_append]
    rfl

theorem branch_of_preds {b c : BlockId} (h : Resolved functions ds p)
    (hb : b ∈ (p.block c).preds) :
    ∃ op, .instruction b op ∈ p.values.toList ∧ ∃ target ∈ op.targets, target.block = c := by
  induction h with
  | nil => cases hb
  | snoc _ _ hread ih =>
    rcases hread.preds c b hb with ⟨-, hb⟩ | ⟨op, hop, htarget⟩
    · obtain ⟨op, hop, htarget⟩ := ih hb
      refine ⟨op, ?_, htarget⟩
      rw [hread.values, List.append_assoc]
      exact List.mem_append_left _ hop
    · refine ⟨op, ?_, htarget⟩
      rw [hread.values]
      exact List.mem_append_right _ hop

theorem loaded_of_load {text : String} (h : load text = .ok p) : p.Loaded := by
  obtain ⟨hbuilt, hvalid⟩ := built_and_valid_of_load h
  obtain ⟨functions, -, hresolve, -⟩ := steps_of_load h
  have hresolved := resolved_of_resolve hresolve
  exact ⟨hbuilt, hvalid, regions_of_load h, modules_of_resolved hresolved,
    fun b c hb => branch_of_preds hresolved hb⟩

/-- What `g` computes from the program of a `text` that can be loaded. -/
theorem exists_load_of_map {α : Type} {text : String} {g : Program → α} {a : α}
    (h : (load text).toOption.map g = some a) : ∃ p, load text = .ok p ∧ g p = a := by
  cases hload : load text with
  | error e =>
    rw [hload] at h
    cases h
  | ok p =>
    rw [hload] at h
    exact ⟨p, rfl, Option.some.inj h⟩

end Source

namespace Program

variable {p : Program} {N : Naming} {σ : ValueId → ValueId} {f : FunctionId} {b : BlockId}
  {u v w : ValueId} {vs seen before after : List ValueId}

/-- Different functions `f` and `g` have different signatures. -/
theorem Loaded.eq_of_signature (h : p.Loaded) {g : FunctionId}
    (hf : f.index < p.functions.size) (hg : g.index < p.functions.size)
    (heq : p.signature f = p.signature g) : f = g := by
  have hmem : (List.range p.functions.size).map FunctionId.mk ∈ p.modules.toList := by
    rw [h.modules]
    simp
  refine List.inj_on_of_nodup_map (h.valid.signatures _ hmem) ?_ ?_ heq
  · exact List.mem_map.2 ⟨f.index, List.mem_range.2 hf, rfl⟩
  · exact List.mem_map.2 ⟨g.index, List.mem_range.2 hg, rfl⟩

theorem exists_value_of_mem {x : Value} (hx : x ∈ p.values.toList) :
    ∃ v : ValueId, v.index < p.values.size ∧ p.value v = x := by
  obtain ⟨i, hi⟩ := List.getElem?_of_mem hx
  refine ⟨⟨i⟩, ?_, ?_⟩
  · simpa using (List.getElem?_eq_some_iff.1 hi).1
  · rw [value_eq_getElem?, hi]
    rfl

/-- The values that have lines in the listing of `f`. -/
def linesOf (p : Program) (f : FunctionId) : List ValueId :=
  p.listed [] (p.instructionsOf (p.function f).blocks)

/-- The values that the listing of `f` creates, in order. -/
def recreated (p : Program) (f : FunctionId) : List ValueId :=
  p.paramsOf (p.function f).blocks ++ p.linesOf f

/-- The values that the listings of the first `k` functions create, in order. -/
def recreatedUpTo (p : Program) (k : Nat) : List ValueId :=
  (List.range k).flatMap fun i => p.recreated ⟨i⟩

theorem recreatedUpTo_succ (k : Nat) :
    p.recreatedUpTo (k + 1) = p.recreatedUpTo k ++ p.recreated ⟨k⟩ := by
  simp [recreatedUpTo, List.range_succ]

/-! ### Lines in order -/

theorem mem_listed_of_mem (hv : v ∈ vs) : ∀ {seen : List ValueId}, v ∈ p.listed seen vs := by
  induction vs with
  | nil => cases hv
  | cons w vs ih =>
    intro seen
    rw [listed, List.mem_append, List.mem_append, List.mem_singleton]
    rcases List.mem_cons.1 hv with rfl | hv
    · exact Or.inl (Or.inr rfl)
    · exact Or.inr (ih hv)

/-- A value `v` with a line is an instruction or a constant that an instruction uses. -/
theorem mem_or_constant_of_mem_listed : ∀ {seen : List ValueId}, v ∈ p.listed seen vs →
    v ∈ vs ∨ (p.constant? v).isSome ∧ v ∉ seen ∧ ∃ w ∈ vs, v ∈ p.operandsOf w := by
  induction vs with
  | nil =>
    intro seen hv
    cases hv
  | cons w vs ih =>
    intro seen hv
    rw [listed, List.mem_append, List.mem_append, List.mem_singleton] at hv
    rcases hv with (hv | rfl) | hv
    · obtain ⟨hoperand, hconst, hseen⟩ := mem_newConstants_iff.1 hv
      exact Or.inr ⟨hconst, hseen, w, List.mem_cons_self, hoperand⟩
    · exact Or.inl List.mem_cons_self
    · rcases ih hv with hv | ⟨hconst, hseen, x, hx, hoperand⟩
      · exact Or.inl (List.mem_cons_of_mem _ hv)
      · refine Or.inr ⟨hconst, fun hmem => hseen (List.mem_append_left _ hmem), x, ?_, hoperand⟩
        exact List.mem_cons_of_mem _ hx

/-- A constant `v` has a line if an instruction `w` uses it. -/
theorem mem_seen_or_listed (hconst : (p.constant? v).isSome) (hw : w ∈ vs)
    (hv : v ∈ p.operandsOf w) :
    ∀ {seen : List ValueId}, v ∈ seen ∨ v ∈ p.listed seen vs := by
  induction vs with
  | nil => cases hw
  | cons x vs ih =>
    intro seen
    rw [listed, List.mem_append, List.mem_append]
    rcases List.mem_cons.1 hw with rfl | hw
    · -- the instruction is the first one, and announces what has not been seen
      by_cases hseen : v ∈ seen
      · exact Or.inl hseen
      · exact Or.inr (Or.inl (Or.inl (mem_newConstants_iff.2 ⟨hv, hconst, hseen⟩)))
    · rcases @ih hw (seen ++ (p.newConstants seen (p.operandsOf x) ++ [x])) with hseen | hmem
      · rw [List.mem_append, List.mem_append] at hseen
        rcases hseen with hseen | hnew
        · exact Or.inl hseen
        · exact Or.inr (Or.inl hnew)
      · exact Or.inr (Or.inr hmem)

theorem nodup_newConstants : ∀ {seen : List ValueId}, (p.newConstants seen vs).Nodup := by
  induction vs with
  | nil =>
    intro seen
    exact List.nodup_nil
  | cons v vs ih =>
    intro seen
    rw [newConstants]
    split
    · refine List.nodup_cons.2 ⟨fun hmem => ?_, ih⟩
      exact (mem_newConstants_iff.1 hmem).2.2 List.mem_cons_self
    · exact ih

theorem nodup_listed (hvs : p.AllOperations vs) (hnodup : vs.Nodup) :
    ∀ {seen : List ValueId}, (p.listed seen vs).Nodup := by
  induction vs with
  | nil =>
    intro seen
    exact List.nodup_nil
  | cons v vs ih =>
    intro seen
    rw [AllOperations, List.forall_mem_cons] at hvs
    obtain ⟨op, hop⟩ := Option.isSome_iff_exists.1 hvs.1
    rw [List.nodup_cons] at hnodup
    have hconst := constant?_of_operation? hop
    -- the constants that are announced are no instructions
    have hhead : (p.newConstants seen (p.operandsOf v) ++ [v]).Nodup := by
      refine List.nodup_append.2 ⟨nodup_newConstants, List.nodup_singleton v, ?_⟩
      intro w hw x hx
      rw [List.mem_singleton.1 hx]
      rintro rfl
      have hsome := constant?_of_mem_newConstants hw
      rw [hconst] at hsome
      cases hsome
    rw [listed]
    refine List.nodup_append.2 ⟨hhead, ih hvs.2 hnodup.2, ?_⟩
    rintro w hw _ hx rfl
    -- what comes later is another instruction, or a constant that was not seen
    rcases mem_or_constant_of_mem_listed hx with hmem | ⟨-, hseen, -⟩
    · rw [List.mem_append, List.mem_singleton] at hw
      rcases hw with hw | rfl
      · obtain ⟨op', hop'⟩ := Option.isSome_iff_exists.1 (hvs.2 w hmem)
        have hsome := constant?_of_mem_newConstants hw
        rw [constant?_of_operation? hop'] at hsome
        cases hsome
      · exact hnodup.1 hmem
    · exact hseen (List.mem_append_right _ hw)

/-- A constant `u` is announced before the first line that uses it. -/
theorem constant_mem_before (hv : (p.operation? v).isSome) (hu : u ∈ p.operandsOf v)
    (hconst : (p.constant? u).isSome) : ∀ {seen before : List ValueId},
      p.listed seen vs = before ++ v :: after → u ∈ seen ++ before := by
  induction vs with
  | nil =>
    intro seen before h
    simp [listed] at h
  | cons x vs ih =>
    intro seen before h
    rw [listed] at h
    rcases List.append_eq_append_iff.1 h with ⟨mid, rfl, hrest⟩ | ⟨mid, hhead, hmid⟩
    · have hmem := ih hrest
      rwa [List.append_assoc] at hmem
    · cases mid with
      | nil =>
        have hmem := @ih _ [] hmid.symm
        rw [List.append_nil] at hhead
        rwa [hhead, List.append_nil] at hmem
      | cons y mid =>
        obtain ⟨rfl, -⟩ := List.cons.inj hmid
        -- the line is that of the first instruction, as those before it announce constants
        rcases List.eq_nil_or_concat mid with rfl | ⟨mid, z, rfl⟩
        · obtain ⟨hnew, hvx⟩ := List.append_inj' hhead rfl
          rw [← hnew, List.mem_append, mem_newConstants_iff]
          obtain rfl : x = v := List.singleton_inj.1 hvx
          by_cases hseen : u ∈ seen
          · exact Or.inl hseen
          · exact Or.inr ⟨hu, hconst, hseen⟩
        · rw [List.concat_eq_append, ← List.cons_append, ← List.append_assoc] at hhead
          obtain ⟨hnew, -⟩ := List.append_inj' hhead rfl
          have hmem : v ∈ p.newConstants seen (p.operandsOf x) := by rw [hnew]; simp
          obtain ⟨op, hop⟩ := Option.isSome_iff_exists.1 hv
          have hsome := constant?_of_mem_newConstants hmem
          rw [constant?_of_operation? hop] at hsome
          cases hsome

/-- An instruction `u` that was created before `v` has its line before it. -/
theorem instruction_mem_before (hvs : p.AllOperations vs)
    (hascending : vs.Pairwise fun v w => v.index < w.index) (hu : u ∈ vs) (hv : v ∈ vs)
    (hlt : u.index < v.index) (h : p.listed seen vs = before ++ v :: after) : u ∈ before := by
  have hmem : u ∈ before ++ v :: after := h ▸ mem_listed_of_mem hu
  rw [List.mem_append, List.mem_cons] at hmem
  rcases hmem with hmem | rfl | hmem
  · exact hmem
  · exact absurd hlt (Nat.lt_irrefl _)
  · -- lines without constants are in the order of `vs`, in which `u` does not come later
    have hfilter := @filter_listed p vs seen hvs
    obtain ⟨opu, hopu⟩ := Option.isSome_iff_exists.1 (hvs u hu)
    obtain ⟨opv, hopv⟩ := Option.isSome_iff_exists.1 (hvs v hv)
    rw [h, List.filter_append, List.filter_cons_of_pos (by simp [constant?_of_operation? hopv])]
      at hfilter
    rw [← hfilter] at hascending
    have hlater := (List.pairwise_append.1 hascending).2.1
    rw [List.pairwise_cons] at hlater
    have hgt := hlater.1 u (List.mem_filter.2 ⟨hmem, by simp [constant?_of_operation? hopu]⟩)
    omega

/-! ### Functions of a program that was loaded -/

theorem blocks_ne_of_blocksFrom {bs : List BlockId} : ∀ {k : Nat}, BlocksFrom k bs →
    bs.Pairwise (· ≠ ·) := by
  induction bs with
  | nil =>
    intro k _
    exact List.Pairwise.nil
  | cons b bs ih =>
    intro k h
    refine List.Pairwise.cons (fun c hc => ?_) (ih h.2)
    rintro rfl
    have hle := h.2.le hc
    rw [h.1] at hle
    exact Nat.not_succ_le_self _ hle

theorem Loaded.allOperations (h : p.Loaded) :
    p.AllOperations (p.instructionsOf (p.function f).blocks) := by
  intro v hv
  obtain ⟨b, -, hv⟩ := List.mem_flatMap.1 hv
  exact h.built.allOperations b v hv

/-- A line `v` with an operand `u` is that of an instruction. -/
theorem Loaded.instruction_of_operand (h : p.Loaded) (hlines : p.linesOf f = before ++ v :: after)
    (hu : u ∈ p.operandsOf v) :
    ∃ op, ∃ b ∈ (p.function f).blocks, v ∈ (p.block b).instructions ∧
      p.value v = .instruction b op ∧ u ∈ op.operands := by
  have hmem : v ∈ p.linesOf f := by rw [hlines]; simp
  rcases mem_or_constant_of_mem_listed hmem with hv | ⟨hconst, -⟩
  · obtain ⟨b, hb, hv⟩ := List.mem_flatMap.1 hv
    obtain ⟨-, op, hvalue⟩ := h.built.instruction hv
    refine ⟨op, b, hb, hv, hvalue, ?_⟩
    simpa [operandsOf, operation?, hvalue] using hu
  · obtain ⟨c, hc⟩ := Option.isSome_iff_exists.1 hconst
    simp [operandsOf, operation?, value_of_constant? hc] at hu

section

variable (h : p.Loaded) (hf : f.index < p.functions.size)

include h hf

theorem Loaded.exists_region :
    ∃ first last start stop, p.Region p.functions.size f first last start stop := by
  obtain ⟨vs, bs, -, -, -, -, hregion⟩ := h.regions
  exact ⟨_, _, _, _, hregion f hf⟩

theorem Loaded.named : p.Named f := by
  obtain ⟨first, last, start, stop, hregion⟩ := h.exists_region hf
  exact hregion.named

/-- The function `f` has passed the check. -/
theorem Loaded.validFunction : p.ValidFunction (p.function f) := by
  refine h.valid.functions _ (by rw [h.modules]; exact List.mem_singleton_self _) _ ?_
  exact List.mem_map.2 ⟨f.index, List.mem_range.2 hf, rfl⟩

/-- The instructions of `f` follow their rules. -/
theorem Loaded.allSettled : p.AllSettled f (p.function f).blocks := by
  obtain ⟨first, last, start, stop, hregion⟩ := h.exists_region hf
  have hvalid := h.validFunction hf
  intro b hb v hv
  unfold ValidFunction at hvalid
  split at hvalid
  · rw [hvalid b hb] at hv
    cases hv
  · obtain ⟨-, op, hvalue⟩ := h.built.instruction hv
    have hop := operation?_eq_some_iff.2 ⟨b, hvalue⟩
    obtain ⟨hfirst, hlast⟩ := hregion.instruction b hb v hv
    have hproper := hregion.proper hfirst hlast hvalue
    exact ⟨op, hvalue, (hvalid.blocks b hb).fits v hv op hop, hproper.callee, hproper.point⟩

theorem Loaded.ascending :
    (p.instructionsOf (p.function f).blocks).Pairwise fun v w => v.index < w.index := by
  obtain ⟨first, last, start, stop, hregion⟩ := h.exists_region hf
  exact hregion.ascending

theorem Loaded.nodup_instructions : (p.instructionsOf (p.function f).blocks).Nodup := by
  refine (h.ascending hf).imp ?_
  rintro v w hlt rfl
  exact Nat.lt_irrefl _ hlt

/-- An operand `u` is created before the line that uses it. -/
theorem Loaded.mem_of_operand (hlines : p.linesOf f = before ++ v :: after)
    (hu : u ∈ p.operandsOf v) : u ∈ p.paramsOf (p.function f).blocks ++ before := by
  obtain ⟨op, b, hb, hv, hvalue, huop⟩ := h.instruction_of_operand hlines hu
  have hop := operation?_eq_some_iff.2 ⟨b, hvalue⟩
  rw [List.mem_append]
  by_cases hconst : p.constant? u = none
  · -- it is a parameter, or an instruction that was created before
    have howns := refersTo_owns h.regions h.built hf hb hv op hop u huop hconst
    obtain ⟨c, hc, hparam | hinstruction⟩ := howns
    · exact Or.inl (List.mem_flatMap.2 ⟨c, hc, hparam⟩)
    · refine Or.inr ?_
      exact instruction_mem_before (h.allOperations) (h.ascending hf)
        (List.mem_flatMap.2 ⟨c, hc, hinstruction⟩) (List.mem_flatMap.2 ⟨b, hb, hv⟩)
        (h.built.operand_lt hvalue huop) hlines
  · refine Or.inr ?_
    have hmem := constant_mem_before (by rw [hop]; rfl) hu (Option.isSome_iff_ne_none.2 hconst)
      hlines
    rwa [List.nil_append] at hmem

theorem Loaded.nodup_recreated : (p.recreated f).Nodup := by
  obtain ⟨first, last, start, stop, hregion⟩ := h.exists_region hf
  refine List.nodup_append.2 ⟨?_, ?_, ?_⟩
  · refine List.nodup_flatMap.2 ⟨fun b _ => h.built.nodup_params b, ?_⟩
    have hne := blocks_ne_of_blocksFrom (hregion.blocks ▸ blocksFrom_range' (stop - start) start)
    refine hne.imp fun hbc v hb hc => ?_
    exact hbc (h.built.param_unique hb hc)
  · exact nodup_listed (h.allOperations) (h.nodup_instructions hf)
  · rintro v hv _ hw rfl
    obtain ⟨b, -, hv⟩ := List.mem_flatMap.1 hv
    rcases mem_or_constant_of_mem_listed hw with hw | ⟨hconst, -⟩
    · obtain ⟨c, -, hw⟩ := List.mem_flatMap.1 hw
      exact h.built.not_mem_params hw hv
    · rw [h.built.constant?_of_param hv] at hconst
      cases hconst

end

/-- A value `v` of `f` lies in the region of the function. -/
theorem Loaded.bounds_of_mem_recreated (h : p.Loaded) {first last start stop : Nat}
    (hregion : p.Region p.functions.size f first last start stop) (hv : v ∈ p.recreated f) :
    first ≤ v.index ∧ v.index < last := by
  rcases List.mem_append.1 hv with hv | hv
  · obtain ⟨b, hb, hv⟩ := List.mem_flatMap.1 hv
    exact hregion.param b hb v hv
  · rcases mem_or_constant_of_mem_listed hv with hv | ⟨-, -, w, hw, hoperand⟩
    · obtain ⟨b, hb, hv⟩ := List.mem_flatMap.1 hv
      exact hregion.instruction b hb v hv
    · -- a constant was created with the function, and before the instruction that uses it
      obtain ⟨b, hb, hw⟩ := List.mem_flatMap.1 hw
      obtain ⟨-, op, hvalue⟩ := h.built.instruction hw
      have hv : v ∈ op.operands := by simpa [operandsOf, operation?, hvalue] using hoperand
      obtain ⟨hfirst, hlast⟩ := hregion.instruction b hb w hw
      exact ⟨((hregion.proper hfirst hlast hvalue).operand v hv).1,
        Nat.lt_trans (h.built.operand_lt hvalue hv) hlast⟩

theorem Loaded.needed_of_mem_recreated (h : p.Loaded) (hv : v ∈ p.recreated f) : p.Needed v := by
  rcases List.mem_append.1 hv with hv | hv
  · obtain ⟨b, -, hv⟩ := List.mem_flatMap.1 hv
    exact h.built.needed_param hv
  · rcases mem_or_constant_of_mem_listed hv with hv | ⟨-, -, w, hw, hoperand⟩
    · obtain ⟨b, -, hv⟩ := List.mem_flatMap.1 hv
      exact h.built.needed_instruction hv
    · obtain ⟨b, -, hw⟩ := List.mem_flatMap.1 hw
      obtain ⟨hlt, op, hvalue⟩ := h.built.instruction hw
      have hop := operation?_eq_some_iff.2 ⟨b, hvalue⟩
      exact h.built.needed_operand hlt hop (by simpa [operandsOf, hop] using hoperand)

/-! ### All values -/

/-- A number `i` below the last of the bounds `g` lies between two of them. -/
theorem exists_between {g : Nat → Nat} {i : Nat} (hzero : g 0 = 0) :
    ∀ {k : Nat}, i < g k → ∃ j < k, g j ≤ i ∧ i < g (j + 1) := by
  intro k
  induction k with
  | zero =>
    intro hi
    omega
  | succ k ih =>
    intro hi
    by_cases hk : i < g k
    · obtain ⟨j, hj, hbounds⟩ := ih hk
      exact ⟨j, by omega, hbounds⟩
    · exact ⟨k, Nat.lt_succ_self k, Nat.not_lt.1 hk, hi⟩

theorem mem_recreatedUpTo {k : Nat} :
    v ∈ p.recreatedUpTo k ↔ ∃ f : FunctionId, f.index < k ∧ v ∈ p.recreated f := by
  rw [recreatedUpTo, List.mem_flatMap]
  constructor
  · rintro ⟨i, hi, hv⟩
    exact ⟨⟨i⟩, List.mem_range.1 hi, hv⟩
  · rintro ⟨f, hf, hv⟩
    exact ⟨f.index, List.mem_range.2 hf, hv⟩

/-- The listing creates the values `v` that are needed. -/
theorem Loaded.mem_recreatedUpTo_iff (h : p.Loaded) :
    v ∈ p.recreatedUpTo p.functions.size ↔ p.Needed v := by
  rw [mem_recreatedUpTo]
  constructor
  · rintro ⟨f, hf, hv⟩
    exact h.needed_of_mem_recreated hv
  · rintro ⟨hlt, hused⟩
    obtain ⟨vs, bs, hzero, -, hsize, -, hregion⟩ := h.regions
    -- the region of a value, which holds it
    have hplace : ∀ w : ValueId, w.index < p.values.size → ∃ f : FunctionId,
        f.index < p.functions.size ∧ p.Held p.functions.size f (vs f.index) w := by
      intro w hw
      obtain ⟨i, hi, hfirst, hlast⟩ := exists_between hzero (hsize ▸ hw)
      exact ⟨⟨i⟩, hi, (hregion ⟨i⟩ hi).held w hfirst hlast⟩
    obtain ⟨f, hf, hheld⟩ := hplace v hlt
    cases hvalue : p.value v with
    | parameter b i ty =>
      rw [Held, hvalue] at hheld
      exact ⟨f, hf, List.mem_append_left _ (List.mem_flatMap.2 ⟨b, hheld⟩)⟩
    | instruction b op =>
      rw [Held, hvalue] at hheld
      refine ⟨f, hf, List.mem_append_right _ (mem_listed_of_mem ?_)⟩
      exact List.mem_flatMap.2 ⟨b, hheld.1, hheld.2.1⟩
    | constant c =>
      have hconst : (p.constant? v).isSome := by rw [constant?, hvalue]; rfl
      obtain ⟨w, op, hop, hv⟩ := hused hconst
      obtain ⟨b, hw⟩ := operation?_eq_some_iff.1 hop
      have hwlt : w.index < p.values.size := by
        by_contra hge
        rw [value, Array.getElem?_eq_none (Nat.not_lt.1 hge)] at hw
        cases hw
      obtain ⟨g, hg, hheld⟩ := hplace w hwlt
      rw [Held, hw] at hheld
      have hoperand : v ∈ p.operandsOf w := by simpa [operandsOf, hop] using hv
      have hmem : v ∈ [] ∨ v ∈ p.linesOf g :=
        mem_seen_or_listed hconst (List.mem_flatMap.2 ⟨b, hheld.1, hheld.2.1⟩) hoperand
      exact ⟨g, hg, List.mem_append_right _ (hmem.resolve_left List.not_mem_nil)⟩

/-- The listing of `p` creates each value once. -/
theorem Loaded.nodup_recreatedUpTo (h : p.Loaded) :
    (p.recreatedUpTo p.functions.size).Nodup := by
  refine List.nodup_flatMap.2 ⟨fun i hi => h.nodup_recreated (List.mem_range.1 hi), ?_⟩
  obtain ⟨vs, bs, -, -, -, -, hregion⟩ := h.regions
  -- the regions of the functions come one after another
  have hmono : ∀ {i j : Nat}, i ≤ j → j ≤ p.functions.size → vs i ≤ vs j := by
    intro i j hij
    induction j, hij using Nat.le_induction with
    | base =>
      intro _
      exact Nat.le_refl _
    | succ j _ ih =>
      intro hj
      exact Nat.le_trans (ih (by omega)) (hregion ⟨j⟩ hj).le
  refine List.pairwise_lt_range.imp_of_mem fun {i j} hi hj hij => ?_
  rw [List.mem_range] at hi hj
  intro v hv hw
  have hbefore := (h.bounds_of_mem_recreated (hregion ⟨i⟩ hi) hv).2
  have hafter := (h.bounds_of_mem_recreated (hregion ⟨j⟩ hj) hw).1
  have hle : vs (i + 1) ≤ vs j := hmono hij (Nat.le_of_lt hj)
  simp only at hbefore hafter
  omega

/-! ### What names stand for -/

/-- The name of `u` stands for it after the values `vs`: it is a parameter, a constant or an
instruction with a result, so that its line gives it the name, and if it is an argument, no other
value has got its name. -/
def Told (p : Program) (f : FunctionId) (vs : List ValueId) (u : ValueId) : Prop :=
  p.announces u = true ∧ ∀ name ∈ p.argument? (p.function f) u,
    ∀ w ∈ vs, p.announces w = true → p.argument? (p.function f) w = none →
      p.spelling (p.naming f) w ≠ name

instance : Decidable (p.Told f vs u) := inferInstanceAs (Decidable (_ ∧ _))

theorem Counts.inj {n : Nat} (h : Counts σ n vs) (hv : v ∈ vs) (hw : w ∈ vs) (heq : σ v = σ w) :
    v = w := by
  obtain ⟨i, hi⟩ := List.getElem?_of_mem hv
  obtain ⟨j, hj⟩ := List.getElem?_of_mem hw
  rw [h.getElem? hi, h.getElem? hj, ValueId.mk.injEq] at heq
  obtain rfl : i = j := by omega
  exact Option.some.inj (hi.symm.trans hj)

theorem mem_told_iff {x : String × ValueId} : x ∈ p.told N σ vs ↔
    ∃ w ∈ vs, p.announces w = true ∧ (p.spelling N w, σ w) = x := by
  simp [told, and_assoc]

section

variable (h : p.Loaded) (hf : f.index < p.functions.size)

include h hf

theorem Loaded.entry_eq :
    (p.block (p.function f).entry).params = (p.function f).args.map Prod.snd := by
  obtain ⟨first, last, start, stop, hregion⟩ := h.exists_region hf
  exact hregion.entry

/-- The arguments of `f` are the parameters of its entry. -/
theorem Loaded.argument?_eq_none_iff :
    p.argument? (p.function f) w = none ↔ w ∉ (p.block (p.function f).entry).params := by
  rw [← not_iff_not, not_not, ← ne_eq, ← Option.isSome_iff_ne_none, h.entry_eq hf]
  constructor
  · intro hsome
    obtain ⟨name, hname⟩ := Option.isSome_iff_exists.1 hsome
    unfold argument? at hname
    split at hname
    · obtain ⟨x, hx, -⟩ := Option.map_eq_some_iff.1 hname
      have hsnd : x.2 = w := by simpa using List.find?_some hx
      exact List.mem_map.2 ⟨x, List.mem_of_find?_eq_some hx, hsnd⟩
    · cases hname
  · intro hw
    obtain ⟨x, hx, rfl⟩ := List.mem_map.1 hw
    rw [argument?_of_mem_args h.built hf (h.entry_eq hf) hx]
    rfl

/-- The parameters of the entry of `f` have the names of the arguments. -/
theorem Loaded.map_spelling_entry :
    (p.block (p.function f).entry).params.map (fun v => (p.spelling (p.naming f) v, σ v)) =
      (p.function f).args.map fun x => (x.1, σ x.2) := by
  rw [h.entry_eq hf, List.map_map]
  refine List.map_congr_left fun x hx => ?_
  rw [Function.comp_apply, spelling, naming_function h.built hf,
    argument?_of_mem_args h.built hf (h.entry_eq hf) hx]
  rfl

/-- Among arguments, a `name` stands for the last one with it. -/
theorem Loaded.lookup_told_entry (name : String) :
    (p.told (p.naming f) σ (p.block (p.function f).entry).params).lookup name =
      ((p.function f).args.reverse.lookup name).map σ := by
  have hall : (p.block (p.function f).entry).params.filter p.announces =
      (p.block (p.function f).entry).params :=
    List.filter_eq_self.2 fun v hv => h.built.announces_param hv
  rw [told, hall, h.map_spelling_entry hf, ← List.map_reverse, lookup_map_snd]

/-- An operand `u` that is no argument has a number. -/
theorem Loaded.mem_named_of_operand (hlines : p.linesOf f = before ++ v :: after)
    (hu : u ∈ p.operandsOf v) (hargument : p.argument? (p.function f) u = none) :
    u ∈ (p.naming f).named := by
  obtain ⟨op, b, hb, hv, -, -⟩ := h.instruction_of_operand hlines hu
  obtain ⟨first, last, start, stop, hregion⟩ := h.exists_region hf
  have hdecl := hregion.isDeclaration_eq_false hb hv
  rw [mem_naming_iff h.built hf, functionMentions, if_neg (by simp [hdecl])]
  refine ⟨List.mem_flatMap.2 ⟨b, hb, ?_⟩, hargument⟩
  refine List.mem_append_right _ (List.mem_flatMap.2 ⟨v, hv, ?_⟩)
  exact List.mem_append_right _ hu

/-- An argument `u` that an instruction uses is the last one with its name. -/
theorem Loaded.lookup_args_of_operand (hlines : p.linesOf f = before ++ v :: after)
    (hu : u ∈ p.operandsOf v) {name : String}
    (hargument : p.argument? (p.function f) u = some name) :
    (p.function f).args.reverse.lookup name = some u := by
  obtain ⟨op, b, hb, hv, hvalue, huop⟩ := h.instruction_of_operand hlines hu
  obtain ⟨first, last, start, stop, hregion⟩ := h.exists_region hf
  obtain ⟨hfirst, hlast⟩ := hregion.instruction b hb v hv
  refine ((hregion.proper hfirst hlast hvalue).operand u huop).2 name ?_
  have hentry : u ∈ (p.block (p.function f).entry).params := by
    by_contra hnot
    rw [(h.argument?_eq_none_iff hf).2 hnot] at hargument
    cases hargument
  rw [h.entry_eq hf] at hentry
  obtain ⟨x, hx, rfl⟩ := List.mem_map.1 hentry
  have hx' := argument?_of_mem_args h.built hf (h.entry_eq hf) hx
  rw [hargument] at hx'
  exact Option.some.inj hx' ▸ hx

section

variable {rest : List ValueId} (hrest : ∀ w ∈ rest, p.argument? (p.function f) w = none)
  (hinj : ∀ w ∈ (p.block (p.function f).entry).params ++ rest, σ w = σ u → w = u)

include hrest hinj

/-- A number stands for the value `u` that has it if there is a line that says so. -/
theorem Loaded.lookup_told_of_named (hmem : u ∈ (p.block (p.function f).entry).params ++ rest)
    (hnamed : u ∈ (p.naming f).named) (hargument : p.argument? (p.function f) u = none) :
    (p.told (p.naming f) σ ((p.block (p.function f).entry).params ++ rest)).lookup
        (p.spelling (p.naming f) u) = some (σ u) ↔ p.announces u = true := by
  have hfunction := naming_function h.built hf
  constructor
  · intro hlookup
    obtain ⟨w, hw, hannounces, heq⟩ := mem_told_iff.1 (mem_of_lookup hlookup)
    rwa [← hinj w hw (Prod.mk.inj heq).2]
  · -- the number is the name of no other value that comes after the arguments
    intro hannounces
    have hunique : ∀ w ∈ rest, p.spelling (p.naming f) w = p.spelling (p.naming f) u → w = u := by
      intro w hw heq
      exact (eq_of_spelling_eq (by rwa [hfunction]) hnamed (by rw [hfunction, hrest w hw])
        heq.symm).symm
    have hlookup : (p.told (p.naming f) σ rest).lookup (p.spelling (p.naming f) u) =
        some (σ u) := by
      rw [told, ← List.map_reverse]
      refine lookup_map_of_unique ?_ fun w hw heq => ?_
      · rw [List.mem_reverse, List.mem_filter]
        have hmemrest := (List.mem_append.1 hmem).resolve_left
          ((h.argument?_eq_none_iff hf).1 hargument)
        exact ⟨hmemrest, hannounces⟩
      · rw [List.mem_reverse, List.mem_filter] at hw
        exact hunique w hw.1 heq
    rw [told_append, List.lookup_append, hlookup]
    rfl

/-- The `name` of an argument `u` stands for it until another value gets it. -/
theorem Loaded.lookup_told_of_argument {name : String}
    (hargument : p.argument? (p.function f) u = some name)
    (hlast : (p.function f).args.reverse.lookup name = some u) :
    (p.told (p.naming f) σ ((p.block (p.function f).entry).params ++ rest)).lookup name =
        some (σ u) ↔
      ∀ w ∈ (p.block (p.function f).entry).params ++ rest, p.announces w = true →
        p.argument? (p.function f) w = none → p.spelling (p.naming f) w ≠ name := by
  rw [told_append, List.lookup_append]
  constructor
  · intro hlookup w hw hannounces hnone heq
    -- the other value comes after the arguments and hides this one
    have hwrest := (List.mem_append.1 hw).resolve_left ((h.argument?_eq_none_iff hf).1 hnone)
    have hsome : ((p.told (p.naming f) σ rest).lookup name).isSome := by
      rw [List.lookup_isSome_iff]
      exact ⟨_, mem_told_iff.2 ⟨w, hwrest, hannounces, rfl⟩, by simp [heq]⟩
    obtain ⟨x, hx⟩ := Option.isSome_iff_exists.1 hsome
    rw [hx, Option.some_or] at hlookup
    obtain ⟨w', hw', -, hpair⟩ := mem_told_iff.1 (mem_of_lookup hx)
    obtain rfl : w' = u := hinj w' (List.mem_append_right _ hw')
      ((Prod.mk.inj hpair).2.trans (Option.some.inj hlookup))
    rw [hrest w' hw'] at hargument
    cases hargument
  · intro hapart
    have hnone : (p.told (p.naming f) σ rest).lookup name = none := by
      rw [List.lookup_eq_none_iff]
      intro x hx
      obtain ⟨w, hw, hannounces, rfl⟩ := mem_told_iff.1 hx
      have hne := hapart w (List.mem_append_right _ hw) hannounces (hrest w hw)
      simpa using hne.symm
    rw [hnone, Option.none_or, h.lookup_told_entry hf, hlast]
    rfl

end

/-- The name of an operand `u` stands for it exactly if it was told. -/
theorem Loaded.lookup_told_iff {n : Nat} (hσ : Counts σ n (p.recreated f))
    (hlines : p.linesOf f = before ++ v :: after) (hu : u ∈ p.operandsOf v) :
    (p.told (p.naming f) σ (p.paramsOf (p.function f).blocks ++ before)).lookup
        (p.spelling (p.naming f) u) = some (σ u) ↔
      p.Told f (p.paramsOf (p.function f).blocks ++ before) u := by
  have hmem := h.mem_of_operand hf hlines hu
  have hnodup := h.nodup_recreated hf
  let entry := (p.block (p.function f).entry).params
  let rest := p.paramsOf (p.function f).others ++ before
  have hsplit : p.paramsOf (p.function f).blocks ++ before = entry ++ rest := by
    rw [Function.blocks, paramsOf_cons, List.append_assoc]
  have hall : p.recreated f = (entry ++ rest) ++ v :: after := by
    rw [← hsplit, recreated, hlines, List.append_assoc]
  rw [hall] at hnodup hσ
  rw [hsplit] at hmem ⊢
  have hinj : ∀ w ∈ entry ++ rest, σ w = σ u → w = u := fun w hw heq =>
    hσ.inj (List.mem_append_left _ hw) (List.mem_append_left _ hmem) heq
  -- only the parameters of the entry are arguments, and each value is created once
  have hrest : ∀ w ∈ rest, p.argument? (p.function f) w = none := by
    intro w hw
    refine (h.argument?_eq_none_iff hf).2 fun hw' => ?_
    exact (List.nodup_append.1 (List.nodup_append.1 hnodup).1).2.2 w hw' w hw rfl
  rw [Told]
  cases hargument : p.argument? (p.function f) u with
  | none =>
    have hnamed := h.mem_named_of_operand hf hlines hu hargument
    rw [h.lookup_told_of_named hf hrest hinj hmem hnamed hargument]
    simp
  | some name =>
    have hname : p.spelling (p.naming f) u = name := by
      rw [spelling, naming_function h.built hf, hargument]
      rfl
    have hannounces : p.announces u = true := by
      refine h.built.announces_param (b := (p.function f).entry) ?_
      by_contra hnot
      rw [(h.argument?_eq_none_iff hf).2 hnot] at hargument
      cases hargument
    have hlast := h.lookup_args_of_operand hf hlines hu hargument
    rw [hname, h.lookup_told_of_argument hf hrest hinj hargument hlast]
    constructor
    · intro hapart
      refine ⟨hannounces, fun name' hname' => ?_⟩
      rwa [← Option.mem_some_iff.1 hname']
    · exact fun htold => htold.2 name rfl

end

end Program

end FlowFacts
