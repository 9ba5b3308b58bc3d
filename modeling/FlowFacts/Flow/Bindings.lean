import FlowFacts.Logic.Formula

/-!
# Bindings

What is known about the truth values of a program: a finite map from values to formulas,
kept as a list in which the values ascend.  Two lists of bindings that give the same
formulas to the same values are therefore equal.

## Main definitions

* `Bindings` — the map.
* `Bindings.get?`, `Bindings.set`, `Bindings.erase`, `Bindings.filter` — its operations.
-/

namespace FlowFacts

/-- The pairs of `entries` stand in ascending order of their values. -/
def Ascending (entries : List (ValueId × Formula)) : Prop :=
  entries.Pairwise fun x y => x.1.index < y.1.index

/-- Put the pair of `v` and `f` in its place in an ascending list; an earlier pair for the value
goes. -/
def insertEntry (v : ValueId) (f : Formula) :
    List (ValueId × Formula) → List (ValueId × Formula)
  | [] => [(v, f)]
  | (w, g) :: rest =>
      if v.index < w.index then (v, f) :: (w, g) :: rest
      else if w.index < v.index then (w, g) :: insertEntry v f rest
      else (v, f) :: rest

/-- A pair `x` of the longer list is the new pair or an old one. -/
theorem mem_of_mem_insertEntry {v : ValueId} {f : Formula} {x : ValueId × Formula}
    {entries : List (ValueId × Formula)} (h : x ∈ insertEntry v f entries) :
    x = (v, f) ∨ x ∈ entries := by
  induction entries with
  | nil => simpa [insertEntry] using h
  | cons e rest ih =>
      obtain ⟨w, g⟩ := e
      simp only [insertEntry] at h
      split at h
      · simpa using h
      · split at h
        · rcases List.mem_cons.1 h with h | h
          · exact .inr (by simp [h])
          · exact (ih h).imp id (List.mem_cons_of_mem _)
        · exact (List.mem_cons.1 h).imp id (List.mem_cons_of_mem _)

/-- Putting a pair in its place keeps the order. -/
theorem Ascending.insertEntry {v : ValueId} {f : Formula} {entries : List (ValueId × Formula)}
    (h : Ascending entries) : Ascending (insertEntry v f entries) := by
  induction entries with
  | nil => exact List.pairwise_singleton _ _
  | cons e rest ih =>
      obtain ⟨w, g⟩ := e
      obtain ⟨hw, hrest⟩ := List.pairwise_cons.1 h
      simp only [FlowFacts.insertEntry]
      split
      · rename_i hv
        refine List.pairwise_cons.2 ⟨fun x hx => ?_, h⟩
        rcases List.mem_cons.1 hx with rfl | hx
        · exact hv
        · exact Nat.lt_trans hv (hw x hx)
      · split
        · rename_i hv
          refine List.pairwise_cons.2 ⟨fun x hx => ?_, ih hrest⟩
          rcases mem_of_mem_insertEntry hx with rfl | hx
          · exact hv
          · exact hw x hx
        · rename_i hv hv'
          have heq : v.index = w.index := by omega
          exact List.pairwise_cons.2 ⟨fun x hx => heq ▸ hw x hx, hrest⟩

/-- The formulas of the truth values that are known. -/
structure Bindings where
  /-- The values and their formulas. -/
  entries : List (ValueId × Formula) := []
  /-- The values ascend. -/
  ascending : Ascending entries := by exact List.Pairwise.nil
  deriving DecidableEq

namespace Bindings

instance : Inhabited Bindings := ⟨{}⟩

/-- No bindings. -/
def empty : Bindings := {}

/-- The formula of `v`. -/
def get? (b : Bindings) (v : ValueId) : Option Formula := b.entries.lookup v

/-- Give `v` the formula `f`. -/
def set (b : Bindings) (v : ValueId) (f : Formula) : Bindings :=
  ⟨insertEntry v f b.entries, b.ascending.insertEntry⟩

/-- Keep the bindings that `keep` accepts. -/
def filter (b : Bindings) (keep : ValueId → Formula → Bool) : Bindings :=
  ⟨b.entries.filter fun x => keep x.1 x.2, List.Pairwise.filter _ b.ascending⟩

/-- Forget the formula of `v`. -/
def erase (b : Bindings) (v : ValueId) : Bindings := b.filter fun w _ => w != v

end Bindings

end FlowFacts
