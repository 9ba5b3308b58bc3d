import FlowFacts.Program.Order
import FlowFacts.Proofs.Lookup
import Mathlib.Data.List.Nodup
import Mathlib.Data.List.Perm.Subperm
import Mathlib.Logic.Relation
import Mathlib.Tactic.Common

/-!
# Reverse post-order

A depth-first walk meets exactly the blocks that can be reached, and leaves a block after
all blocks that it branches to, except those that it is on the way from.  So an edge to a
block that does not come later in reverse post-order closes a cycle.

The walk follows at most as many branches on a path as there are blocks.  This is enough:
every block on a path was met for the first time there, and when there is no step left, all
blocks have been met.

A block gets its number when it is left.  The numbers count the blocks left before, so looking
up the number of a block and looking up the block with a number undo each other.

## Main definitions

* `Program.Edge`, `Program.Reaches` — control flow between blocks.
* `Walked` — what a walk from some blocks does.
* `Program.Walk.Numbered` — the numbers that a walk has given.

## Main results

* `mem_reversePostOrder_iff` — the blocks listed are those that can be reached.
* `reaches_of_edge_back`, `reaches_of_position_le` — edges that do not go forward close a cycle.
* `number?_eq_some_iff` — numbers and blocks are inverse to each other.
-/

namespace FlowFacts

namespace Program

/-- The block `b` branches to `c`. -/
def Edge (p : Program) (b c : BlockId) : Prop := ∃ target ∈ p.successors b, target.block = c

/-- A block can be reached from another in `p`. -/
def Reaches (p : Program) : BlockId → BlockId → Prop := Relation.ReflTransGen p.Edge

end Program

open Program

variable {p : Program} {b c d : BlockId} {bs cs : List BlockId} {w w₁ w' : Walk}

/-- A walk from the blocks `bs` has left more blocks, `new`, the latest first. -/
structure Walked (p : Program) (bs : List BlockId) (w : Walk) (new : List BlockId) (w' : Walk) :
    Prop where
  /-- The new blocks were left after the others. -/
  finished : w'.finished = new ++ w.finished
  /-- Exactly they were met in addition. -/
  seen : ∀ c, c ∈ w'.seen ↔ c ∈ new ∨ c ∈ w.seen
  /-- All blocks of the start were met. -/
  start : ∀ c ∈ bs, c ∈ w'.seen
  /-- No block was left twice. -/
  nodup : new.Nodup
  /-- The new blocks had not been met. -/
  fresh : ∀ c ∈ new, c ∉ w.seen
  /-- They can be reached. -/
  reaches : ∀ c ∈ new, ∃ b ∈ bs, p.Reaches b c
  /-- The blocks that they branch to were met. -/
  closed : ∀ c ∈ new, ∀ d, p.Edge c d → d ∈ w'.seen
  /-- A block that one of them branches to was left earlier, was met before the walk, or leads
  back. -/
  back : ∀ before c after d, new = before ++ c :: after → p.Edge c d →
    d ∈ after ∨ d ∈ w.seen ∨ p.Reaches d c

namespace Walked

/-- A walk from blocks `bs` that have been met changes nothing. -/
theorem of_seen (h : ∀ c ∈ bs, c ∈ w.seen) : Walked p bs w [] w where
  finished := rfl
  seen := by simp
  start := h
  nodup := List.nodup_nil
  fresh := by simp
  reaches := by simp
  closed := by simp
  back before c after d h := by simp at h

/-- One walk after another, from `bs` and then from `cs`. -/
theorem trans {new new' : List BlockId} (h : Walked p bs w new w₁)
    (h' : Walked p cs w₁ new' w') : Walked p (bs ++ cs) w (new' ++ new) w' where
  finished := by rw [h'.finished, h.finished, List.append_assoc]
  seen c := by rw [h'.seen, h.seen, List.mem_append, or_assoc]
  start c hc := by
    rw [h'.seen]
    rcases List.mem_append.1 hc with hc | hc
    · exact Or.inr (h.start c hc)
    · exact (h'.seen c).1 (h'.start c hc)
  nodup := by
    refine List.nodup_append.2 ⟨h'.nodup, h.nodup, fun c hc d hd heq => ?_⟩
    exact h'.fresh c hc ((h.seen c).2 (Or.inl (heq ▸ hd)))
  fresh c hc hseen := by
    rcases List.mem_append.1 hc with hc | hc
    · exact h'.fresh c hc ((h.seen c).2 (Or.inr hseen))
    · exact h.fresh c hc hseen
  reaches c hc := by
    rcases List.mem_append.1 hc with hc | hc
    · obtain ⟨b, hb, hbc⟩ := h'.reaches c hc
      exact ⟨b, List.mem_append_right _ hb, hbc⟩
    · obtain ⟨b, hb, hbc⟩ := h.reaches c hc
      exact ⟨b, List.mem_append_left _ hb, hbc⟩
  closed c hc d hedge := by
    rcases List.mem_append.1 hc with hc | hc
    · exact h'.closed c hc d hedge
    · exact (h'.seen d).2 (Or.inr (h.closed c hc d hedge))
  back before c after d hnew hedge := by
    rcases List.append_eq_append_iff.1 hnew with ⟨mid, rfl, hmid⟩ | ⟨mid, hmid, hafter⟩
    · -- the block was left by the first walk
      exact h.back mid c after d hmid hedge
    · cases mid with
      | nil =>
        rw [List.nil_append] at hafter
        exact h.back [] c after d hafter.symm hedge
      | cons x mid =>
        rw [List.cons_append, List.cons.injEq] at hafter
        obtain ⟨rfl, rfl⟩ := hafter
        rcases h'.back before c mid d hmid hedge with hd | hd | hd
        · exact Or.inl (List.mem_append_left _ hd)
        · rcases (h.seen d).1 hd with hd | hd
          · exact Or.inl (List.mem_append_right _ hd)
          · exact Or.inr (Or.inl hd)
        · exact Or.inr (Or.inr hd)

/-- The block `b` is met, the blocks it branches to are walked from, and then it is left. -/
theorem visit {new : List BlockId} (hb : b ∉ w.seen)
    (h : Walked p ((p.successors b).map Target.block) { w with seen := b :: w.seen } new w') :
    Walked p [b] w (b :: new) (w'.leave b) where
  finished := congrArg (b :: ·) h.finished
  seen c := by
    rw [Walk.leave, h.seen, List.mem_cons, List.mem_cons, or_left_comm, or_assoc]
  start c hc := by
    rw [List.mem_singleton.1 hc]
    exact (h.seen b).2 (Or.inr List.mem_cons_self)
  nodup := List.nodup_cons.2 ⟨fun hnew => h.fresh b hnew List.mem_cons_self, h.nodup⟩
  fresh := List.forall_mem_cons.2
    ⟨hb, fun c hc hseen => h.fresh c hc (List.mem_cons_of_mem _ hseen)⟩
  reaches := by
    refine List.forall_mem_cons.2 ⟨⟨b, List.mem_singleton_self b, .refl⟩, fun c hc => ?_⟩
    obtain ⟨d, hd, hdc⟩ := h.reaches c hc
    obtain ⟨target, htarget, rfl⟩ := List.mem_map.1 hd
    exact ⟨b, List.mem_singleton_self b, .head ⟨target, htarget, rfl⟩ hdc⟩
  closed := by
    refine List.forall_mem_cons.2 ⟨fun d hedge => ?_, h.closed⟩
    obtain ⟨target, htarget, rfl⟩ := hedge
    exact h.start _ (List.mem_map.2 ⟨target, htarget, rfl⟩)
  back before c after d hnew hedge := by
    have hmem : ∀ {c}, c ∈ new → p.Reaches b c := by
      intro c hc
      obtain ⟨d, hd, hdc⟩ := h.reaches c hc
      obtain ⟨target, htarget, rfl⟩ := List.mem_map.1 hd
      exact .head ⟨target, htarget, rfl⟩ hdc
    cases before with
    -- from the block itself an edge leads to a new block, to one met before, or to itself
    | nil =>
      rw [List.nil_append, List.cons.injEq] at hnew
      obtain ⟨rfl, rfl⟩ := hnew
      obtain ⟨target, htarget, rfl⟩ := hedge
      rcases (h.seen _).1 (h.start _ (List.mem_map.2 ⟨target, htarget, rfl⟩)) with hd | hd
      · exact Or.inl hd
      · rcases List.mem_cons.1 hd with hd | hd
        · exact Or.inr (Or.inr (hd ▸ .refl))
        · exact Or.inr (Or.inl hd)
    | cons x before =>
      rw [List.cons_append, List.cons.injEq] at hnew
      obtain ⟨rfl, hnew⟩ := hnew
      rcases h.back before c after d hnew hedge with hd | hd | hd
      · exact Or.inl hd
      · rcases List.mem_cons.1 hd with hd | hd
        · -- the block that is being visited leads to all new ones
          exact Or.inr (Or.inr (hd ▸ hmem (by rw [hnew]; simp)))
        · exact Or.inr (Or.inl hd)
      · exact Or.inr (Or.inr hd)

end Walked

/-! ### Enough steps -/

/-- The blocks met are different blocks of the program, and `n` steps are enough for all
others. -/
structure Program.Walk.Within (p : Program) (n : Nat) (w : Walk) : Prop where
  /-- They are blocks of the program. -/
  lt : ∀ c ∈ w.seen, c.index < p.blocks.size
  /-- They are different. -/
  nodup : w.seen.Nodup
  /-- The others are `n` at most. -/
  enough : p.blocks.size ≤ n + w.seen.length

/-- When no step is left, all blocks `b` have been met. -/
theorem Program.Walk.Within.mem_seen (h : w.Within p 0) (hb : b.index < p.blocks.size) :
    b ∈ w.seen := by
  have hsub : w.seen.Subperm ((List.range p.blocks.size).map BlockId.mk) := by
    refine h.nodup.subperm fun c hc => List.mem_map.2 ⟨c.index, ?_, rfl⟩
    exact List.mem_range.2 (h.lt c hc)
  have hperm := hsub.perm_of_length_le (by simpa using h.enough)
  exact hperm.mem_iff.2 (List.mem_map.2 ⟨b.index, List.mem_range.2 hb, rfl⟩)

theorem Program.Walk.Within.cons {n : Nat} (h : w.Within p (n + 1)) (hb : b.index < p.blocks.size)
    (hnew : b ∉ w.seen) : Program.Walk.Within p n { w with seen := b :: w.seen } where
  lt := List.forall_mem_cons.2 ⟨hb, h.lt⟩
  nodup := List.nodup_cons.2 ⟨hnew, h.nodup⟩
  enough := by
    have := h.enough
    simp only [List.length_cons]
    omega

/-- A walk of at most `n` steps on a path does what it should. -/
theorem walk_spec (hedges : ∀ {b c}, p.Edge b c → c.index < p.blocks.size) :
    ∀ {n : Nat} {b : BlockId} {w : Walk}, b.index < p.blocks.size → w.Within p n →
      (∃ new, Walked p [b] w new (p.walk n b w)) ∧ (p.walk n b w).Within p n := by
  intro n
  induction n with
  | zero =>
    intro b w hb hw
    exact ⟨⟨[], .of_seen (by simpa using hw.mem_seen hb)⟩, hw⟩
  | succ n ih =>
    intro b w hb hw
    rw [walk]
    split
    · rename_i hseen
      exact ⟨⟨[], .of_seen (by simpa using hseen)⟩, hw⟩
    · rename_i hseen
      -- all targets, one after another
      have hall : ∀ (targets : List Target) {w : Walk},
          (∀ target ∈ targets, target.block.index < p.blocks.size) → w.Within p n →
          (∃ new, Walked p (targets.map Target.block) w new
            (targets.foldl (fun w target => p.walk n target.block w) w)) ∧
          (targets.foldl (fun w target => p.walk n target.block w) w).Within p n := by
        intro targets
        induction targets with
        | nil => exact fun _ hw => ⟨⟨[], .of_seen (by simp)⟩, hw⟩
        | cons target targets ihtargets =>
          intro w hlt hw
          rw [List.forall_mem_cons] at hlt
          obtain ⟨⟨new, hnew⟩, hw₁⟩ := ih hlt.1 hw
          obtain ⟨⟨new', hnew'⟩, hw₂⟩ := ihtargets hlt.2 hw₁
          exact ⟨⟨new' ++ new, hnew.trans hnew'⟩, hw₂⟩
      obtain ⟨⟨new, hnew⟩, hw₁⟩ := hall (p.successors b)
        (fun target htarget => hedges ⟨target, htarget, rfl⟩) (hw.cons hb hseen)
      exact ⟨⟨b :: new, hnew.visit hseen⟩, hw₁.lt, hw₁.nodup,
        Nat.le_trans hw₁.enough (Nat.add_le_add_right (Nat.le_succ n) _)⟩

/-! ### The order of a function -/

/-- Branches stay inside the program `p`, and so does the entry of `f`. -/
structure Program.Closed (p : Program) (f : FunctionId) : Prop where
  /-- The entry is a block. -/
  entry : (p.function f).entry.index < p.blocks.size
  /-- So are all targets. -/
  edges : ∀ {b c}, p.Edge b c → c.index < p.blocks.size

variable {f : FunctionId}

theorem reversePostOrder_eq_finished (p : Program) (f : FunctionId) : p.reversePostOrder f =
    (p.walk p.blocks.size (p.function f).entry {}).finished :=
  List.reverse_reverse _

theorem walked_reversePostOrder (h : p.Closed f) :
    Walked p [(p.function f).entry] {} (p.reversePostOrder f)
      (p.walk p.blocks.size (p.function f).entry {}) := by
  have hstart : Program.Walk.Within p p.blocks.size {} := ⟨by simp, by simp, by simp⟩
  obtain ⟨⟨new, hnew⟩, -⟩ := walk_spec h.edges h.entry hstart
  have hfinished : p.reversePostOrder f = new := by
    rw [reversePostOrder_eq_finished, hnew.finished, List.append_nil]
  rw [hfinished]
  exact hnew

theorem nodup_reversePostOrder (h : p.Closed f) : (p.reversePostOrder f).Nodup :=
  (walked_reversePostOrder h).nodup

/-- The blocks listed are those that the entry of `f` reaches. -/
theorem mem_reversePostOrder_iff (h : p.Closed f) :
    b ∈ p.reversePostOrder f ↔ p.Reaches (p.function f).entry b := by
  have hwalked := walked_reversePostOrder h
  have hseen : ∀ c, c ∈ (p.walk p.blocks.size (p.function f).entry {}).seen ↔
      c ∈ p.reversePostOrder f := fun c => by simp [hwalked.seen]
  constructor
  · intro hb
    obtain ⟨c, hc, hcb⟩ := hwalked.reaches b hb
    rwa [List.mem_singleton.1 hc] at hcb
  · intro hb
    induction hb with
    | refl => exact (hseen _).1 (hwalked.start _ (List.mem_singleton_self _))
    | tail _ hedge ih => exact (hseen _).1 (hwalked.closed _ ih _ hedge)

/-- The entry of `f` comes first. -/
theorem head?_reversePostOrder (h : p.Closed f) :
    (p.reversePostOrder f).head? = some (p.function f).entry := by
  obtain ⟨n, hn⟩ := Nat.exists_eq_succ_of_ne_zero (Nat.ne_of_gt (Nat.zero_lt_of_lt h.entry))
  rw [reversePostOrder_eq_finished, hn, walk]
  rfl

/-- An edge from a listed block `b` to a block `c` that does not come later leads back. -/
theorem reaches_of_edge_back (h : p.Closed f) {before after : List BlockId}
    (horder : p.reversePostOrder f = before ++ b :: after) (hedge : p.Edge b c)
    (hc : c ∉ after) : p.Reaches c b := by
  rcases (walked_reversePostOrder h).back before b after c horder hedge with h | h | h
  · exact absurd h hc
  · simp at h
  · exact h

namespace Program

variable {n : Nat}

/-! ### Numbers -/

/-- The blocks that `w` has left have the numbers from zero on, in the order in which they were
left. -/
structure Walk.Numbered (w : Walk) : Prop where
  /-- The next number is the number of blocks left. -/
  next : w.next = w.finished.length
  /-- The numbers are the positions in order of leaving. -/
  numbers : w.numbers = w.finished.reverse.zipIdx.reverse

theorem Walk.Numbered.leave (h : w.Numbered) (b : BlockId) : (w.leave b).Numbered where
  next := congrArg (· + 1) h.next
  numbers := by simp [Walk.leave, h.next, h.numbers, List.zipIdx_append]

/-- A walk `w` gives the numbers in order. -/
theorem numbered_walk : ∀ {n : Nat} {b : BlockId} {w : Walk}, w.Numbered →
    (p.walk n b w).Numbered := by
  intro n
  induction n with
  | zero => exact fun h => h
  | succ n ih =>
    intro b w h
    rw [walk]
    split
    · exact h
    · have hmet : Walk.Numbered { w with seen := b :: w.seen } := ⟨h.next, h.numbers⟩
      exact (List.foldlRecOn (p.successors b) _ hmet fun _ hw _ _ => ih hw).leave b

theorem nodup_postOrder (h : p.Closed f) : (p.postOrder f).blocks.Nodup :=
  List.nodup_reverse.1 (nodup_reversePostOrder h)

/-- A block `b` has the number `n` exactly if it is the block with that number. -/
theorem number?_eq_some_iff (h : p.Closed f) :
    (p.postOrder f).number? b = some n ↔ (p.postOrder f).block? n = some b := by
  have hwalk : (p.walk p.blocks.size (p.function f).entry {}).Numbered :=
    numbered_walk ⟨rfl, rfl⟩
  have hnumbers : (p.postOrder f).numbers = (p.postOrder f).blocks.zipIdx.reverse := hwalk.numbers
  have hkeys : ((p.postOrder f).numbers.map Prod.fst).Nodup := by
    rw [hnumbers, List.map_reverse, List.nodup_reverse, List.zipIdx_map_fst]
    exact nodup_postOrder h
  rw [PostOrder.number?, lookup_eq_some_iff_mem hkeys, hnumbers, List.mem_reverse,
    List.mem_zipIdx_iff_getElem?]
  rfl

/-! ### Positions -/

/-- A list `l` is what stands before a position, what stands there, and what stands behind. -/
theorem eq_take_append_cons_drop {α : Type} {l : List α} {i : Nat} {a : α}
    (h : l[i]? = some a) : l = l.take i ++ a :: l.drop (i + 1) := by
  obtain ⟨hlt, rfl⟩ := List.getElem?_eq_some_iff.1 h
  rw [← List.drop_eq_getElem_cons hlt, List.take_append_drop]

/-- An edge from `b` to `c` that does not lead to a later position leads back. -/
theorem reaches_of_position_le (h : p.Closed f) {i j : Nat} (hedge : p.Edge b c)
    (hb : (p.reversePostOrder f)[i]? = some b) (hc : (p.reversePostOrder f)[j]? = some c)
    (hle : j ≤ i) : p.Reaches c b := by
  refine reaches_of_edge_back h (eq_take_append_cons_drop hb) hedge fun hmem => ?_
  -- a block stands once, so it is not found behind its position
  obtain ⟨k, hk⟩ := List.getElem?_of_mem hmem
  rw [List.getElem?_drop] at hk
  have hj := (List.getElem?_eq_some_iff.1 hc).1
  have hsame := (List.getElem?_inj hj (nodup_reversePostOrder h)).1 (hc.trans hk.symm)
  omega

end Program

end FlowFacts
