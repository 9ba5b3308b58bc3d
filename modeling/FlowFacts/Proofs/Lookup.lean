import Mathlib.Logic.Function.Basic
import Mathlib.Tactic.Common

/-!
# Association lists

The tables of the program are lists of keys and what is kept under them, where the first pair
with a key counts.  Here is what looking up a key gives after a pair was added in front, after
keys or what is kept under them were changed, and in lists where a key stands once.

## Main results

* `lookup_cons_eq` — looking up after adding a pair.
* `lookup_eq_some_iff_mem` — looking up where keys stand once.
* `lookup_map_key` — looking up after an injective change of the keys.
-/

namespace FlowFacts

variable {α β γ δ : Type}

section

variable [DecidableEq α] {k k' : α} {b b' : β} {l : List (α × β)}

theorem lookup_cons_eq : ((k, b) :: l).lookup k' = if k' = k then some b else l.lookup k' := by
  rw [List.lookup_cons]
  by_cases h : k' = k
  · simp [h]
  · simp [h, beq_eq_false_iff_ne.2 h]

/-- What is kept under `k'` stays when `k`, under which nothing is kept, gets something. -/
theorem lookup_cons_of_lookup (hk : l.lookup k = none) (hk' : l.lookup k' = some b') :
    ((k, b) :: l).lookup k' = some b' := by
  have hne : k' ≠ k := by
    rintro rfl
    simp [hk] at hk'
  rw [lookup_cons_eq, if_neg hne, hk']

/-- If no key of `l` stands twice, a pair is found by its key. -/
theorem lookup_eq_some_iff_mem (h : (l.map Prod.fst).Nodup) :
    l.lookup k = some b ↔ (k, b) ∈ l := by
  induction l with
  | nil => simp
  | cons x rest ih =>
    obtain ⟨k', b'⟩ := x
    rw [List.map_cons, List.nodup_cons] at h
    rw [lookup_cons_eq, List.mem_cons]
    split
    · rename_i hk
      subst hk
      -- the key stands in front, so not in the rest
      have hnot : (k, b) ∉ rest := fun hmem => h.1 (List.mem_map.2 ⟨(k, b), hmem, rfl⟩)
      simp [hnot, eq_comm]
    · rename_i hk
      simp [hk, ih h.2]

end

section

variable [BEq α] [LawfulBEq α] {k : α} {b : β} {l : List (α × β)}

theorem mem_of_lookup (h : l.lookup k = some b) : (k, b) ∈ l := by
  obtain ⟨l₁, l₂, hl, -⟩ := List.lookup_eq_some_iff.1 h
  simp [hl]

theorem isSome_lookup_iff : (l.lookup k).isSome ↔ k ∈ l.map Prod.fst := by
  rw [List.lookup_isSome_iff, List.mem_map]
  constructor
  · rintro ⟨x, hx, heq⟩
    exact ⟨x, hx, (eq_of_beq heq).symm⟩
  · rintro ⟨x, hx, rfl⟩
    exact ⟨x, hx, beq_self_eq_true _⟩

/-- Keys are changed by an injective `h`, and what is kept under them by `g`. -/
theorem lookup_map_key [BEq γ] [LawfulBEq γ] {h : α → γ} (hh : Function.Injective h) (g : β → δ)
    (k : α) (l : List (α × β)) :
    (l.map fun x => (h x.1, g x.2)).lookup (h k) = (l.lookup k).map g := by
  induction l with
  | nil => rfl
  | cons x l ih =>
    rw [List.map_cons, List.lookup_cons, List.lookup_cons, ih]
    by_cases hx : k = x.1
    · simp [hx]
    · have hne : h k ≠ h x.1 := fun heq => hx (hh heq)
      simp [beq_false_of_ne hx, beq_false_of_ne hne]

theorem lookup_map_snd {g : β → δ} :
    (l.map fun x => (x.1, g x.2)).lookup k = (l.lookup k).map g :=
  lookup_map_key Function.injective_id g k l

/-- If the key of `x` belongs to no other member of a list, the image of `x` is found under it. -/
theorem lookup_map_of_unique {key : γ → α} {image : γ → δ} {xs : List γ} {x : γ} (hx : x ∈ xs)
    (hkey : ∀ y ∈ xs, key y = key x → y = x) :
    (xs.map fun y => (key y, image y)).lookup (key x) = some (image x) := by
  induction xs with
  | nil => cases hx
  | cons y xs ih =>
    rw [List.forall_mem_cons] at hkey
    rw [List.map_cons, List.lookup_cons]
    by_cases hy : key x = key y
    · rw [hkey.1 hy.symm]
      simp
    · have hne : x ≠ y := by
        rintro rfl
        exact hy rfl
      simp only [beq_eq_false_iff_ne.2 hy]
      exact ih ((List.mem_cons.1 hx).resolve_left hne) hkey.2

end

end FlowFacts
