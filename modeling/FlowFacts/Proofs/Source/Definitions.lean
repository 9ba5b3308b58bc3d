import FlowFacts.Proofs.Source.Structure

/-!
# What names stand for

A name can be given to arguments of a function, to parameters of its blocks and to its lines, and
more than once.  A reader takes a name for the latest of these before it in the text.  Resolving
does not: the heads of all blocks are read before any line, so a parameter may hide one of an
earlier block from a line between the two, and a line hides the parameters of all blocks behind it.
So a name stands for the latest line before it that has the name, and if there is none, for the
last parameter with the name in the whole function.

The arguments of a function are the parameters of its entry, which has none of its own, so the text
of a function is the row of its blocks with these (`FunctionDecl.layout`).

## Main definitions

* `Spot`, `latest` — where names are given, and the latest place of a name.
* `writtenBefore`, `declaredAt` — the names a reader sees at a line, and those that are known there.
* `Program.NamesStandFor` — what the operands of the instructions of a function are.

## Main results

* `latest_declaredAt_eq_iff` — where a name means what a reader takes it for.
* `names_stand_for_latest` — what the operands of a loaded program are.
-/

namespace FlowFacts

namespace Source

/-! ### Places -/

/-- Where a name is given: a parameter or a line of a block, all counted from zero. -/
inductive Spot where
  /-- A parameter of a block; those of the entry are the arguments. -/
  | parameter (block index : Nat)
  /-- A line of a block. -/
  | line (block index : Nat)
  deriving DecidableEq, Repr

/-- Names with the places where they are given, in some order. -/
abbrev Table := List (String × Spot)

/-- The latest place of `name` in the `table`. -/
def latest (table : Table) (name : String) : Option Spot := table.reverse.lookup name

/-- The parameters of a `block`, from some index on. -/
def headPlaces (block : Nat) : Nat → List (String × Ty) → Table
  | _, [] => []
  | i, x :: xs => (x.1, .parameter block i) :: headPlaces block (i + 1) xs

/-- The lines of a `block` with names, from some index on. -/
def linePlaces (block : Nat) : Nat → List InstructionDecl → Table
  | _, [] => []
  | i, d :: ds => (d.name.map (·, .line block i)).toList ++ linePlaces block (i + 1) ds

/-- The parameters of blocks, from some number on. -/
def headsPlaces : Nat → List BlockDecl → Table
  | _, [] => []
  | k, d :: ds => headPlaces k 0 d.params ++ headsPlaces (k + 1) ds

/-- The lines of blocks with names, from some number on. -/
def linesPlaces : Nat → List BlockDecl → Table
  | _, [] => []
  | k, d :: ds => linePlaces k 0 d.body ++ linesPlaces (k + 1) ds

/-- The parameters and lines of blocks in the order of the text. -/
def writtenPlaces : Nat → List BlockDecl → Table
  | _, [] => []
  | k, d :: ds => headPlaces k 0 d.params ++ linePlaces k 0 d.body ++ writtenPlaces (k + 1) ds

/-- What a reader of the blocks `ds` has seen before line `i` of block `j`. -/
def writtenBefore (ds : List BlockDecl) (j i : Nat) : Table := writtenPlaces 0 (upToLine ds j i)

/-- The lines with names before line `i` of block `j`. -/
def assignedBefore (ds : List BlockDecl) (j i : Nat) : Table := linesPlaces 0 (upToLine ds j i)

/-- The parameters of the blocks behind block `j`. -/
def declaredBehind (ds : List BlockDecl) (j : Nat) : Table := headsPlaces (j + 1) (ds.drop (j + 1))

/-- What is known at line `i` of block `j`: all parameters, and then the lines before it. -/
def declaredAt (ds : List BlockDecl) (j i : Nat) : Table :=
  headsPlaces 0 ds ++ assignedBefore ds j i

/-! ### What a reader takes a name for -/

variable {table : Table} {name : String} {place : Spot} {x : String × Spot}

theorem latest_append (front back : Table) :
    latest (front ++ back) name = (latest back name).or (latest front name) := by
  rw [latest, List.reverse_append, List.lookup_append]
  rfl

theorem mem_of_latest (h : latest table name = some place) : (name, place) ∈ table := by
  obtain ⟨front, back, hlist, -⟩ := List.lookup_eq_some_iff.1 h
  rw [← List.mem_reverse, hlist]
  exact List.mem_append_right _ List.mem_cons_self

theorem latest_eq_none_iff : latest table name = none ↔ ∀ x ∈ table, x.1 ≠ name := by
  rw [latest, List.lookup_eq_none_iff]
  simp only [List.mem_reverse, bne_iff_ne, ne_comm]

theorem of_mem_headPlaces {k : Nat} {xs : List (String × Ty)} : ∀ {i : Nat},
    x ∈ headPlaces k i xs → ∃ l, x.2 = .parameter k l := by
  induction xs with
  | nil => exact fun hx => nomatch hx
  | cons y ys ih =>
    intro i hx
    rcases List.mem_cons.1 hx with rfl | hx
    · exact ⟨i, rfl⟩
    · exact ih hx

theorem of_mem_linePlaces {k : Nat} {ds : List InstructionDecl} :
    ∀ {i : Nat}, x ∈ linePlaces k i ds → ∃ l, x.2 = .line k l := by
  induction ds with
  | nil => exact fun hx => nomatch hx
  | cons d ds ih =>
    intro i hx
    rcases List.mem_append.1 hx with hx | hx
    · obtain ⟨y, -, rfl⟩ := Option.map_eq_some_iff.1 (Option.mem_toList.1 hx)
      exact ⟨i, rfl⟩
    · exact ih hx

/-- The parameters of the blocks `ds`, which are numbered from `k` on, are in these blocks. -/
theorem of_mem_headsPlaces {ds : List BlockDecl} : ∀ {k : Nat},
    x ∈ headsPlaces k ds → ∃ j l, x.2 = .parameter j l ∧ k ≤ j ∧ j < k + ds.length := by
  induction ds with
  | nil => exact fun hx => nomatch hx
  | cons d ds ih =>
    intro k hx
    rw [List.length_cons]
    rcases List.mem_append.1 hx with hx | hx
    · obtain ⟨l, hl⟩ := of_mem_headPlaces hx
      exact ⟨k, l, hl, Nat.le_refl k, by omega⟩
    · obtain ⟨j, l, hl, hle, hlt⟩ := ih hx
      exact ⟨j, l, hl, by omega, by omega⟩

theorem of_mem_linesPlaces {ds : List BlockDecl} : ∀ {k : Nat},
    x ∈ linesPlaces k ds → (∃ j l, x.2 = .line j l) ∧ x ∈ writtenPlaces k ds := by
  induction ds with
  | nil => exact fun hx => nomatch hx
  | cons d ds ih =>
    intro k hx
    rcases List.mem_append.1 hx with hx | hx
    · obtain ⟨l, hl⟩ := of_mem_linePlaces hx
      exact ⟨⟨k, l, hl⟩, List.mem_append_left _ (List.mem_append_right _ hx)⟩
    · exact (ih hx).imp id fun hx => List.mem_append_right _ hx

/-- If a reader takes `name` for a line, it is the latest line with the name. -/
theorem latest_linesPlaces {ds : List BlockDecl} {a b : Nat} : ∀ {k : Nat},
    latest (writtenPlaces k ds) name = some (.line a b) →
      latest (linesPlaces k ds) name = some (.line a b) := by
  induction ds with
  | nil => exact fun h => nomatch h
  | cons d ds ih =>
    intro k h
    rw [writtenPlaces, latest_append, Option.or_eq_some_iff] at h
    rw [linesPlaces, latest_append, Option.or_eq_some_iff]
    rcases h with h | ⟨hnone, h⟩
    · exact Or.inl (ih h)
    · -- nothing behind the block has the name, and its parameters are no lines
      refine Or.inr ⟨?_, ?_⟩
      · rw [latest_eq_none_iff] at hnone ⊢
        exact fun x hx => hnone x (of_mem_linesPlaces hx).2
      · rw [latest_append, Option.or_eq_some_iff] at h
        refine h.resolve_right fun h => ?_
        obtain ⟨l, hl⟩ := of_mem_headPlaces (mem_of_latest h.2)
        cases hl

/-- If no line has the `name`, a reader finds a parameter. -/
theorem latest_headsPlaces {ds : List BlockDecl} : ∀ {k : Nat},
    latest (linesPlaces k ds) name = none →
      latest (writtenPlaces k ds) name = latest (headsPlaces k ds) name := by
  induction ds with
  | nil => exact fun _ => rfl
  | cons d ds ih =>
    intro k h
    rw [linesPlaces, latest_append, Option.or_eq_none_iff] at h
    rw [writtenPlaces, latest_append, latest_append, h.2, Option.none_or, ih h.1, headsPlaces,
      latest_append]

/-- The parameters of the blocks up to block `j` and of those behind it. -/
theorem headsPlaces_upToLine (ds : List BlockDecl) (i : Nat) : ∀ k j : Nat,
    headsPlaces k ds =
      headsPlaces k (upToLine ds j i) ++ headsPlaces (k + (j + 1)) (ds.drop (j + 1)) := by
  induction ds with
  | nil => exact fun _ _ => rfl
  | cons d ds ih =>
    intro k j
    cases j with
    | zero => simp [upToLine, headsPlaces]
    | succ j =>
      rw [upToLine, headsPlaces, headsPlaces, List.drop_succ_cons, ih (k + 1) j,
        List.append_assoc, show k + 1 + (j + 1) = k + (j + 1 + 1) by omega]

theorem length_upToLine_le (ds : List BlockDecl) (i : Nat) : ∀ j : Nat,
    (upToLine ds j i).length ≤ j + 1 := by
  induction ds with
  | nil => exact fun _ => Nat.zero_le _
  | cons d ds ih =>
    intro j
    cases j with
    | zero => exact Nat.le_refl 1
    | succ j => exact Nat.succ_le_succ (ih j)

/-- A `name` means what a reader takes it for exactly if that is a line, or if no line before has
the name and no block behind has a parameter with it. -/
theorem latest_declaredAt_eq_iff (ds : List BlockDecl) (j i : Nat) :
    latest (declaredAt ds j i) name = latest (writtenBefore ds j i) name ↔
      (∃ a b, latest (writtenBefore ds j i) name = some (.line a b)) ∨
        latest (assignedBefore ds j i) name = none ∧ latest (declaredBehind ds j) name = none := by
  rw [declaredAt, latest_append]
  cases hline : latest (assignedBefore ds j i) name with
  -- a line before has the name, and it hides all parameters
  | some place =>
    obtain ⟨⟨a, b, hab⟩, -⟩ := of_mem_linesPlaces (mem_of_latest hline)
    obtain rfl : place = .line a b := hab
    rw [Option.some_or]
    constructor
    · exact fun h => Or.inl ⟨a, b, h.symm⟩
    · rintro (⟨a', b', h⟩ | ⟨h, -⟩)
      · rw [h, ← hline]
        exact latest_linesPlaces h
      · cases h
  | none =>
    -- without such a line a reader finds the last parameter before
    have hwritten : latest (writtenBefore ds j i) name =
        latest (headsPlaces 0 (upToLine ds j i)) name := latest_headsPlaces hline
    have hheads := headsPlaces_upToLine ds i 0 j
    rw [Nat.zero_add] at hheads
    rw [Option.none_or, hwritten, hheads, latest_append]
    constructor
    · intro h
      refine Or.inr ⟨rfl, ?_⟩
      cases hbehind : latest (declaredBehind ds j) name with
      | none => rfl
      | some place =>
        -- a parameter behind the line is not one before it
        rw [show latest (headsPlaces (j + 1) (ds.drop (j + 1))) name = some place from hbehind,
          Option.some_or] at h
        obtain ⟨a, b, hab, hle, -⟩ := of_mem_headsPlaces (mem_of_latest hbehind)
        obtain ⟨a', b', hab', -, hlt⟩ := of_mem_headsPlaces (mem_of_latest h.symm)
        have hlength := length_upToLine_le ds i j
        cases hab.symm.trans hab'
        omega
    · rintro (⟨a, b, h⟩ | ⟨-, h⟩)
      · obtain ⟨a', b', hab, -⟩ := of_mem_headsPlaces (mem_of_latest h)
        cases hab
      · rw [show latest (headsPlaces (j + 1) (ds.drop (j + 1))) name = none from h, Option.none_or]

/-! ### Values of places -/

/-- The names of the operands of an operation, in the order they are written. -/
def OperationDecl.operandNames : OperationDecl → List String
  | .annotate _ | .nop | .const .. => []
  | .not arg => [arg]
  | .binary _ lhs rhs | .compare _ lhs rhs => [lhs, rhs]
  | .branch _ args | .call _ args => args
  | .condBranch cond _ trueArgs _ falseArgs => cond :: (trueArgs ++ falseArgs)
  | .ret _ value => [value]

/-- A place is one of the blocks `ds`. -/
def Spot.Within (ds : List BlockDecl) : Spot → Prop
  | .parameter j i => ∃ d, ds[j]? = some d ∧ i < d.params.length
  | .line j i => ∃ d, ds[j]? = some d ∧ i < d.body.length

end Source

namespace Program

open Source

/-- The `value` of each place in the blocks `ds` of `f`: parameters and instructions stand in the
blocks as they are written, and constants are what is written. -/
structure Locates (p : Program) (f : FunctionId) (ds : List BlockDecl) (value : Spot → ValueId) :
    Prop where
  /-- The arguments are the parameters of the entry. -/
  arguments : (p.function f).args.map Prod.snd = (p.block (p.function f).entry).params
  /-- There are as many blocks as are written. -/
  blocks : (p.function f).blocks.length = ds.length
  /-- The parameters of a block. -/
  parameters : ∀ (j : Nat) (d : BlockDecl) (b : BlockId), ds[j]? = some d →
    (p.function f).blocks[j]? = some b →
    (p.block b).params = d.params.zipIdx.map fun x => value (.parameter j x.2)
  /-- The instructions of a block are its lines without constants. -/
  instructions : ∀ (j : Nat) (d : BlockDecl) (b : BlockId), ds[j]? = some d →
    (p.function f).blocks[j]? = some b →
    (p.block b).instructions = (d.body.zipIdx.filter fun x => !x.1.operation.isConst).map
      fun x => value (.line j x.2)
  /-- The constants. -/
  constants : ∀ j d i x ty c, ds[j]? = some d → d.body[i]? = some x → x.operation = .const ty c →
    p.value (value (.line j i)) = .constant c
  /-- Different places have become different values. -/
  injective : ∀ x y, x.Within ds → y.Within ds → value x = value y → x = y

/-- The operands of the instructions of `f` are what names stand for, where the latest place in
the `table` for each line is meant. -/
def NamesStandFor (p : Program) (f : FunctionId) (ds : List BlockDecl)
    (table : Nat → Nat → Table) : Prop :=
  ∃ value, p.Locates f ds value ∧ ∀ j d i x, ds[j]? = some d → d.body[i]? = some x →
    x.operation.isConst = false → ∃ op, p.operation? (value (.line j i)) = some op ∧
      List.Forall₂ (fun name v => (latest (table j i) name).map value = some v)
        x.operation.operandNames op.operands

end Program

namespace Source

open Program

variable {site : Site} {scope : Scope}

/-- The names of the operands of `x` become operands. -/
theorem OperationDecl.exists_operands (site : Site) (scope : Scope) (b : BlockId)
    {x : OperationDecl} (hconst : x.isConst = false) :
    ∃ op, x.value site scope b = .instruction b op ∧
      op.operands = x.operandNames.map (find scope) := by
  cases x with
  | const => cases hconst
  | annotate | not | binary | branch | call | compare | nop | ret => exact ⟨_, rfl, rfl⟩
  | condBranch =>
    refine ⟨_, rfl, ?_⟩
    simp [Operation.operands, OperationDecl.operandNames]

theorem OperationDecl.Resolves.known {x : OperationDecl} (h : x.Resolves site scope) :
    ∀ name ∈ x.operandNames, Known scope name := by
  cases x with
  | annotate | nop | const => exact fun name hname => nomatch hname
  | not arg | binary op lhs rhs | compare predicate lhs rhs =>
    simpa [OperationDecl.operandNames, OperationDecl.Resolves] using h
  | branch label args => exact h.2
  | call path args => exact h
  | condBranch cond trueLabel trueArgs falseLabel falseArgs =>
    obtain ⟨hcond, -, -, htrue, hfalse⟩ := h
    simp only [OperationDecl.operandNames, List.forall_mem_cons, List.forall_mem_append]
    exact ⟨hcond, htrue, hfalse⟩
  | ret ty value => simpa [OperationDecl.operandNames, OperationDecl.Resolves] using h

/-- The names of a `table` with the values of their places, the latest first. -/
def scopeOf (value : Spot → ValueId) (table : Table) : Scope :=
  (table.map fun x => (x.1, value x.2)).reverse

variable {value : Spot → ValueId}

theorem scopeOf_append (front back : Table) :
    scopeOf value (front ++ back) = scopeOf value back ++ scopeOf value front := by
  rw [scopeOf, List.map_append, List.reverse_append]
  rfl

theorem lookup_scopeOf {table : Table} {name : String} :
    (scopeOf value table).lookup name = (latest table name).map value := by
  rw [scopeOf, ← List.map_reverse, lookup_map_snd, latest]

theorem numbered_eq_places {k : Nat} {xs : List (String × Ty)} : ∀ {n i : Nat},
    (∀ l, value (.parameter k (i + l)) = ⟨n + l⟩) →
      numbered n xs = (headPlaces k i xs).map fun x => (x.1, value x.2) := by
  induction xs with
  | nil => exact fun _ => rfl
  | cons x xs ih =>
    intro n i h
    have hnext : ∀ l, value (.parameter k (i + 1 + l)) = ⟨n + 1 + l⟩ := fun l => by
      rw [Nat.add_assoc, Nat.add_assoc]
      exact h (1 + l)
    have hfirst : value (.parameter k i) = ⟨n⟩ := h 0
    rw [numbered, headPlaces, List.map_cons, ih hnext, hfirst]

/-- The names after the heads of the blocks `ds`. -/
theorem headsScope_eq_places {ds : List BlockDecl} : ∀ {n k : Nat} {scope : Scope},
    (∀ j i, value (.parameter (k + j) i) = ⟨n + paramCount (ds.take j) + i⟩) →
      headsScope scope n ds = scopeOf value (headsPlaces k ds) ++ scope := by
  induction ds with
  | nil => exact fun _ => rfl
  | cons d ds ih =>
    intro n k scope h
    have hfirst : (numbered n d.params).reverse = scopeOf value (headPlaces k 0 d.params) := by
      rw [scopeOf, ← numbered_eq_places fun l => ?_]
      rw [Nat.zero_add]
      exact h 0 l
    have hnext : ∀ j i, value (.parameter (k + 1 + j) i) =
        ⟨n + d.params.length + paramCount (ds.take j) + i⟩ := fun j i => by
      rw [show k + 1 + j = k + (j + 1) by omega, h (j + 1) i, List.take_succ_cons, paramCount,
        ← Nat.add_assoc n]
    rw [headsScope, hfirst, ih hnext, headsPlaces, scopeOf_append, List.append_assoc]

theorem bodyScope_eq_places {k : Nat} {ds : List InstructionDecl} :
    ∀ {n i : Nat} {scope : Scope}, (∀ l, value (.line k (i + l)) = ⟨n + l⟩) →
      bodyScope scope n ds = scopeOf value (linePlaces k i ds) ++ scope := by
  induction ds with
  | nil => exact fun _ => rfl
  | cons d ds ih =>
    intro n i scope h
    have hnext : ∀ l, value (.line k (i + 1 + l)) = ⟨n + 1 + l⟩ := fun l => by
      rw [Nat.add_assoc, Nat.add_assoc]
      exact h (1 + l)
    have hfirst : d.scope scope ⟨n⟩ =
        scopeOf value (d.name.map (·, Spot.line k i)).toList ++ scope := by
      rw [InstructionDecl.scope]
      cases d.name with
      | none => rfl
      | some name => exact congrArg (fun v => (name, v) :: scope) (h 0).symm
    rw [bodyScope, ih hnext, hfirst, linePlaces, scopeOf_append, List.append_assoc]

/-- The names after the lines of the blocks `ds`. -/
theorem bodiesScope_eq_places {ds : List BlockDecl} : ∀ {n k : Nat} {scope : Scope},
    (∀ j i, j < ds.length → value (.line (k + j) i) = ⟨n + lineCount (ds.take j) + i⟩) →
      bodiesScope scope n ds = scopeOf value (linesPlaces k ds) ++ scope := by
  induction ds with
  | nil => exact fun _ => rfl
  | cons d ds ih =>
    intro n k scope h
    have hfirst : bodyScope scope n d.body = scopeOf value (linePlaces k 0 d.body) ++ scope :=
      bodyScope_eq_places fun l => by
        rw [Nat.zero_add]
        exact h 0 l (Nat.succ_pos _)
    have hnext : ∀ j i, j < ds.length → value (.line (k + 1 + j) i) =
        ⟨n + d.body.length + lineCount (ds.take j) + i⟩ := fun j i hj => by
      rw [show k + 1 + j = k + (j + 1) by omega, h (j + 1) i (Nat.succ_lt_succ hj),
        List.take_succ_cons, lineCount, ← Nat.add_assoc n]
    rw [bodiesScope, ih hnext, hfirst, linesPlaces, scopeOf_append, List.append_assoc]

/-- Before the block of a line, the blocks `ds` up to the line are complete. -/
theorem take_upToLine {ds : List BlockDecl} {i : Nat} : ∀ {j l : Nat},
    l < (upToLine ds j i).length → (upToLine ds j i).take l = ds.take l := by
  induction ds with
  | nil => exact fun hl => nomatch hl
  | cons d ds ih =>
    intro j l hl
    cases j with
    | zero =>
      obtain rfl : l = 0 := Nat.lt_one_iff.1 hl
      rfl
    | succ j =>
      cases l with
      | zero => rfl
      | succ l =>
        rw [upToLine, List.take_succ_cons, List.take_succ_cons, ih (Nat.lt_of_succ_lt_succ hl)]

theorem resolves_of_body {ds : List InstructionDecl} {x : InstructionDecl} :
    ∀ {scope : Scope} {n i : Nat}, BodyResolves site scope n ds → ds[i]? = some x →
      x.operation.Resolves site (bodyScope scope n (ds.take i)) := by
  induction ds with
  | nil => exact fun _ hx => nomatch hx
  | cons d ds ih =>
    intro scope n i h hx
    cases i with
    | zero =>
      cases hx
      exact h.1
    | succ i => exact ih h.2 hx

/-- A line `x` can be resolved with the names after the lines up to it. -/
theorem resolves_of_bodies {ds : List BlockDecl} {d : BlockDecl} {x : InstructionDecl} :
    ∀ {scope : Scope} {n j i : Nat}, BodiesResolve site scope n ds → ds[j]? = some d →
      d.body[i]? = some x →
        x.operation.Resolves site (bodiesScope scope n (upToLine ds j i)) := by
  induction ds with
  | nil => exact fun _ hd => nomatch hd
  | cons d' ds ih =>
    intro scope n j i h hd hx
    cases j with
    | zero =>
      cases hd
      exact resolves_of_body h.1 hx
    | succ j => exact ih h.2 hd hx

/-! ### Where the values of a function are -/

/-- The value of a place in the blocks `ds`, whose values are numbered from `n` on: first come
the parameters of all blocks, then their lines. -/
def address (ds : List BlockDecl) (n : Nat) : Spot → ValueId
  | .parameter j i => ⟨n + paramCount (ds.take j) + i⟩
  | .line j i => ⟨n + paramCount ds + lineCount (ds.take j) + i⟩

section Counting

variable {count : List BlockDecl → Nat} {size : BlockDecl → Nat} {ds : List BlockDecl}
  {d d' : BlockDecl} {i i' : Nat}

variable (hnil : count [] = 0) (hcons : ∀ d ds, count (d :: ds) = size d + count ds)

include hnil hcons

/-- The place `i` of a block `d` is counted within the row of the blocks. -/
theorem count_take_add_lt : ∀ {j : Nat}, ds[j]? = some d → i < size d →
    count (ds.take j) + i < count ds := by
  induction ds with
  | nil =>
    intro j hd
    cases hd
  | cons d₀ ds ih =>
    intro j hd hi
    cases j with
    | zero =>
      cases hd
      rw [List.take_zero, hnil, hcons]
      omega
    | succ j =>
      have hlt := ih hd hi
      rw [List.take_succ_cons, hcons, hcons]
      omega

/-- Each place has a number of its own. -/
theorem eq_of_count_take_add : ∀ {j j' : Nat}, ds[j]? = some d → ds[j']? = some d' → i < size d →
    i' < size d' → count (ds.take j) + i = count (ds.take j') + i' → j = j' ∧ i = i' := by
  induction ds with
  | nil =>
    intro j j' hd
    cases hd
  | cons d₀ ds ih =>
    intro j j' hd hd' hi hi' heq
    cases j with
    | zero =>
      cases hd
      cases j' with
      | zero => exact ⟨rfl, Nat.add_left_cancel heq⟩
      | succ j' =>
        rw [List.take_zero, hnil, List.take_succ_cons, hcons] at heq
        omega
    | succ j =>
      cases j' with
      | zero =>
        cases hd'
        rw [List.take_zero, hnil, List.take_succ_cons, hcons] at heq
        omega
      | succ j' =>
        rw [List.take_succ_cons, hcons, List.take_succ_cons, hcons] at heq
        obtain ⟨rfl, hii⟩ := ih hd hd' hi hi' (by omega)
        exact ⟨rfl, hii⟩

end Counting

/-- A parameter comes before all lines of `ds`. -/
theorem address_parameter_lt {ds : List BlockDecl} {n j i : Nat}
    (h : (Spot.parameter j i).Within ds) :
    (address ds n (.parameter j i)).index < n + paramCount ds := by
  obtain ⟨d, hd, hi⟩ := h
  have hlt : paramCount (ds.take j) + i < paramCount ds :=
    count_take_add_lt rfl (fun _ _ => rfl) hd hi
  rw [address]
  show n + paramCount (ds.take j) + i < n + paramCount ds
  omega

/-- Different places `x` and `y` have different values. -/
theorem address_injective {ds : List BlockDecl} {n : Nat} {x y : Spot} (hx : x.Within ds)
    (hy : y.Within ds) (h : address ds n x = address ds n y) : x = y := by
  have hindex := congrArg ValueId.index h
  cases x with
  | parameter j i =>
    cases y with
    | parameter j' i' =>
      obtain ⟨d, hd, hi⟩ := hx
      obtain ⟨d', hd', hi'⟩ := hy
      have hsum : paramCount (ds.take j) + i = paramCount (ds.take j') + i' := by
        simp only [address] at hindex
        omega
      obtain ⟨rfl, rfl⟩ := eq_of_count_take_add rfl (fun _ _ => rfl) hd hd' hi hi' hsum
      rfl
    | line j' i' =>
      have hlt := address_parameter_lt (n := n) hx
      simp only [address] at hindex hlt
      omega
  | line j i =>
    cases y with
    | parameter j' i' =>
      have hlt := address_parameter_lt (n := n) hy
      simp only [address] at hindex hlt
      omega
    | line j' i' =>
      obtain ⟨d, hd, hi⟩ := hx
      obtain ⟨d', hd', hi'⟩ := hy
      have hsum : lineCount (ds.take j) + i = lineCount (ds.take j') + i' := by
        simp only [address] at hindex
        omega
      obtain ⟨rfl, rfl⟩ := eq_of_count_take_add rfl (fun _ _ => rfl) hd hd' hi hi' hsum
      rfl

theorem getElem?_heads {f : FunctionId} {ds : List BlockDecl} {d : BlockDecl} : ∀ {n j : Nat},
    ds[j]? = some d → (heads f n ds)[j]? = some
      { label := d.label, function := f,
        params := (numbered (n + paramCount (ds.take j)) d.params).map Prod.snd } := by
  induction ds with
  | nil => exact fun hd => nomatch hd
  | cons d' ds ih =>
    intro n j hd
    cases j with
    | zero =>
      cases hd
      rfl
    | succ j =>
      rw [heads, List.getElem?_cons_succ, List.take_succ_cons, paramCount, ← Nat.add_assoc]
      exact ih hd

theorem map_snd_headPlaces (k : Nat) (xs : List (String × Ty)) : ∀ i : Nat,
    (headPlaces k i xs).map Prod.snd = (xs.zipIdx i).map fun x => .parameter k x.2 := by
  induction xs with
  | nil => exact fun _ => rfl
  | cons x xs ih =>
    intro i
    rw [headPlaces, List.map_cons, ih, List.zipIdx_cons, List.map_cons]

/-- The instructions of a block are at the places of its lines `ds` without constants. -/
theorem bodyIds_eq_places {value : Spot → ValueId} {k : Nat} {ds : List InstructionDecl} :
    ∀ {n i : Nat}, (∀ l, value (.line k (i + l)) = ⟨n + l⟩) →
      bodyIds n ds = ((ds.zipIdx i).filter fun x => !x.1.operation.isConst).map
        fun x => value (.line k x.2) := by
  induction ds with
  | nil => exact fun _ => rfl
  | cons d ds ih =>
    intro n i h
    have hnext : ∀ l, value (.line k (i + 1 + l)) = ⟨n + 1 + l⟩ := fun l => by
      rw [Nat.add_assoc, Nat.add_assoc]
      exact h (1 + l)
    have hfirst : value (.line k i) = ⟨n⟩ := h 0
    rw [bodyIds, ih hnext, List.zipIdx_cons]
    cases hconst : d.operation.isConst with
    | true => simp [hconst]
    | false => simp [hconst, hfirst]

section

variable {functions : List FunctionDecl} {d : FunctionDecl} {p p₀ q₀ : Program}

/-- What is known at line `i` of block `j` of the function `d`. -/
theorem FunctionDecl.scope_eq_places (d : FunctionDecl) (p₀ : Program) (j i : Nat) :
    bodiesScope (d.scope p₀) (p₀.values.size + paramCount d.layout) (upToLine d.layout j i) =
      scopeOf (address d.layout p₀.values.size) (declaredAt d.layout j i) := by
  have hheads : d.scope p₀ =
      scopeOf (address d.layout p₀.values.size) (headsPlaces 0 d.layout) ++ [] :=
    headsScope_eq_places fun j i => by
      rw [Nat.zero_add]
      rfl
  have hlines : bodiesScope (d.scope p₀) (p₀.values.size + paramCount d.layout)
      (upToLine d.layout j i) =
        scopeOf (address d.layout p₀.values.size) (assignedBefore d.layout j i) ++ d.scope p₀ :=
    bodiesScope_eq_places fun l m hl => by
      rw [Nat.zero_add, take_upToLine hl]
      rfl
  rw [hlines, hheads, List.append_nil, declaredAt, scopeOf_append]

theorem Placed.index_lt (h : Placed functions d p₀ q₀ p) :
    p₀.functions.size < p.functions.size := by
  have hsize := h.read.size
  have hle := h.grows.functions
  omega

theorem Placed.getElem?_blocks (h : Placed functions d p₀ q₀ p) {j : Nat} {b : BlockId}
    (hb : (p.function ⟨p₀.functions.size⟩).blocks[j]? = some b) :
    b = ⟨p₀.blocks.size + j⟩ ∧ j < d.layout.length := by
  rw [h.function_eq, h.read.blocks_eq] at hb
  obtain ⟨hj, hget⟩ := List.getElem?_eq_some_iff.1 hb
  rw [List.getElem_map, List.getElem_range', Nat.one_mul] at hget
  rw [List.length_map, List.length_range'] at hj
  exact ⟨hget.symm, hj⟩

/-- The values of the function `d` are where they are expected. -/
theorem Placed.locates (h : Placed functions d p₀ q₀ p) (hp : p.Loaded) :
    p.Locates ⟨p₀.functions.size⟩ d.layout (address d.layout p₀.values.size) where
  arguments := by
    obtain ⟨vs, bs, -, -, -, -, hregion⟩ := hp.regions
    exact (hregion ⟨p₀.functions.size⟩ h.index_lt).entry.symm
  blocks := by
    rw [h.function_eq, h.read.blocks_eq, List.length_map, List.length_range']
  parameters j block b hblock hb := by
    -- functions that are read later do not change the block
    obtain ⟨rfl, hj⟩ := h.getElem?_blocks hb
    have hparts := eq_of_parts (h.grows.block ⟨p₀.blocks.size + j⟩
      (by rw [h.read.blocks]; exact Nat.add_lt_add_left hj _))
    have hvalue : ∀ l, address d.layout p₀.values.size (.parameter j (0 + l)) =
        ⟨p₀.values.size + paramCount (d.layout.take j) + l⟩ := fun l => by
      rw [Nat.zero_add]
      rfl
    have hparams := congrArg Block.params (h.read.block j _ (getElem?_heads hblock))
    rw [hparts.2.2.1, show (q₀.block ⟨p₀.blocks.size + j⟩).params = _ from hparams,
      numbered_eq_places hvalue, List.map_map]
    have hplaces := congrArg (List.map (address d.layout p₀.values.size))
      (map_snd_headPlaces j block.params 0)
    rw [List.map_map, List.map_map] at hplaces
    exact hplaces
  instructions j block b hblock hb := by
    obtain ⟨rfl, hj⟩ := h.getElem?_blocks hb
    have hparts := eq_of_parts (h.grows.block ⟨p₀.blocks.size + j⟩
      (by rw [h.read.blocks]; exact Nat.add_lt_add_left hj _))
    rw [hparts.2.2.2, h.read.instructions_eq (h.read.mem_blocks hj), bodiesIds_of_getElem? hblock]
    exact bodyIds_eq_places fun l => by
      rw [Nat.zero_add]
      rfl
  constants j block i x ty c hblock hx hop := by
    refine (h.value_of_line hblock hx).trans ?_
    rw [hop]
    rfl
  injective x y := address_injective

/-- The operands of the instructions of the function `d` are what their names stand for. -/
theorem Placed.namesStandFor (h : Placed functions d p₀ q₀ p) (hp : p.Loaded) :
    p.NamesStandFor ⟨p₀.functions.size⟩ d.layout (declaredAt d.layout) := by
  refine ⟨_, h.locates hp, fun j block i x hblock hx hconst => ?_⟩
  have hvalue := h.value_of_line hblock hx
  have hresolves := resolves_of_bodies h.resolves.lines hblock hx
  rw [d.scope_eq_places] at hvalue hresolves
  obtain ⟨op, hop, hoperands⟩ := OperationDecl.exists_operands (d.site functions p₀)
    (scopeOf (address d.layout p₀.values.size) (declaredAt d.layout j i))
    ⟨p₀.blocks.size + j⟩ hconst
  refine ⟨op, operation?_eq_some_iff.2 ⟨_, hvalue.trans hop⟩, ?_⟩
  rw [hoperands, List.forall₂_map_right_iff, List.forall₂_same]
  intro name hname
  obtain ⟨v, hv⟩ := Option.isSome_iff_exists.1 (hresolves.known name hname)
  rw [find, hv, ← lookup_scopeOf, hv]
  rfl

end

end Source

open Source

/-- A parameter of the last block hides one of the block before it. -/
def hidingText : String :=
  "module \x7b
    fn f(a: bool) -> bool \x7b
      entry(): br b(a)
      b(x: bool): br c(x)
      c(x: bool): ret bool x
    \x7d
  \x7d"

/-- The function of the text. -/
def hidingTree : FunctionDecl where
  path := ["f"]
  args := [("a", .bool)]
  returnType := .bool
  blocks := some
    [⟨"entry", [], [⟨none, .branch "b" ["a"]⟩]⟩,
      ⟨"b", [("x", .bool)], [⟨none, .branch "c" ["x"]⟩]⟩,
      ⟨"c", [("x", .bool)], [⟨none, .ret .bool "x"⟩]⟩]

theorem read_hidingText : Source.read hidingText = .ok [hidingTree] := by decide +kernel

/-- The program of the text, as far as its middle block is concerned. -/
theorem exists_load_hidingText : ∃ p, Source.load hidingText = .ok p ∧
    (p.function ⟨0⟩).blocks = [⟨0⟩, ⟨1⟩, ⟨2⟩] ∧ (p.block ⟨1⟩).params = [⟨1⟩] ∧
    (p.block ⟨1⟩).instructions = [⟨4⟩] ∧ p.operation? ⟨4⟩ = some (.branch ⟨⟨2⟩, [⟨2⟩]⟩) := by
  obtain ⟨p, hload, hp⟩ : ∃ p, Source.load hidingText = .ok p ∧ decide (
      (p.function ⟨0⟩).blocks = [⟨0⟩, ⟨1⟩, ⟨2⟩] ∧ (p.block ⟨1⟩).params = [⟨1⟩] ∧
      (p.block ⟨1⟩).instructions = [⟨4⟩] ∧
      p.operation? ⟨4⟩ = some (.branch ⟨⟨2⟩, [⟨2⟩]⟩)) = true :=
    Source.exists_load_of_map (by decide +kernel)
  exact ⟨p, hload, of_decide_eq_true hp⟩

/-- In the middle block the name does not stand for its own parameter, which is the latest place
before. -/
theorem hidden_parameter : ∃ p, Source.load hidingText = .ok p ∧
    Source.read hidingText = .ok [hidingTree] ∧
    ¬ p.NamesStandFor ⟨0⟩ hidingTree.layout (writtenBefore hidingTree.layout) := by
  obtain ⟨p, hload, hblocks, hparams, hlines, hop⟩ := exists_load_hidingText
  refine ⟨p, hload, read_hidingText, ?_⟩
  rintro ⟨value, hlocates, hnames⟩
  have hblock : (p.function ⟨0⟩).blocks[1]? = some ⟨1⟩ := by rw [hblocks]; rfl
  have hparam : [⟨1⟩] = [value (.parameter 1 0)] :=
    hparams.symm.trans (hlocates.parameters 1 _ ⟨1⟩ rfl hblock)
  have hline : [⟨4⟩] = [value (.line 1 0)] :=
    hlines.symm.trans (hlocates.instructions 1 _ ⟨1⟩ rfl hblock)
  have hlatest : latest (writtenBefore hidingTree.layout 1 0) "x" = some (.parameter 1 0) := by
    decide +kernel
  obtain ⟨op, hop', hoperands⟩ := hnames 1 _ 0 _ rfl rfl rfl
  rw [← List.singleton_inj.1 hline, hop] at hop'
  cases hop'
  cases hoperands with
  | cons hname _ =>
    -- the operand is the parameter of the last block
    rw [hlatest, Option.map_some, ← List.singleton_inj.1 hparam] at hname
    cases hname

/-- **What names stand for.**  Take a text that is accepted, and a line of one of its functions.
An operand of the line is what the latest place of its name has become, among all parameters of
the function and then the lines before.  So it is the latest line before that has the name, and
without one it is the last parameter with the name, be it behind the line.  This is the latest place
before the line in the text if and only if that is a line, or if no line before has the name and no
block behind has a parameter with it. -/
theorem names_stand_for_latest {text : String} {p : Program} (hload : Source.load text = .ok p) :
    ∃ functions, Source.read text = .ok functions ∧ functions.length = p.functions.size ∧
      ∀ (f : FunctionId) (d : FunctionDecl), functions[f.index]? = some d →
        p.NamesStandFor f d.layout (declaredAt d.layout) ∧
        ∀ j i name,
          latest (declaredAt d.layout j i) name = latest (writtenBefore d.layout j i) name ↔
            (∃ a b, latest (writtenBefore d.layout j i) name = some (.line a b)) ∨
              latest (assignedBefore d.layout j i) name = none ∧
                latest (declaredBehind d.layout j) name = none := by
  obtain ⟨functions, hread, -, -⟩ := Source.steps_of_load hload
  have hp := Source.loadedFrom_of_load hload hread
  refine ⟨functions, hread, hp.resolved.size_functions.symm, fun f d hd => ⟨?_, ?_⟩⟩
  · obtain ⟨p₀, q₀, hplaced, hsize⟩ := hp.resolved.exists_placed hd
    obtain rfl : (⟨p₀.functions.size⟩ : FunctionId) = f := congrArg FunctionId.mk hsize
    exact hplaced.namesStandFor hp.toLoaded
  · exact fun j i name => latest_declaredAt_eq_iff d.layout j i

/-- The name in the middle block stands for the parameter of the last one. -/
theorem hiding_names_stand_for : ∃ p, Source.load hidingText = .ok p ∧
    p.NamesStandFor ⟨0⟩ hidingTree.layout (declaredAt hidingTree.layout) ∧
    latest (declaredAt hidingTree.layout 1 0) "x" = some (.parameter 2 0) := by
  obtain ⟨p, hload, -⟩ := exists_load_hidingText
  obtain ⟨functions, hread, -, hnames⟩ := names_stand_for_latest hload
  obtain rfl : functions = [hidingTree] := Except.ok.inj (hread.symm.trans read_hidingText)
  exact ⟨p, hload, (hnames ⟨0⟩ hidingTree rfl).1, by decide +kernel⟩

end FlowFacts
