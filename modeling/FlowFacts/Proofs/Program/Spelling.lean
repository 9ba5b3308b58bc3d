import FlowFacts.Program.Listing
import Mathlib.Data.List.Nodup

/-!
# Names in listings

A listing names values as it goes.  A name that has been given stays, so every name is the one
that its value has at the end, and a listing can be described without its state.  `Spells` says
what steps of a listing do: the result is a function of any later state of the names, and the
values that have names afterwards are those that had one and those mentioned.

## Main definitions

* `Program.argument?`, `Program.spelling` — the name of a value, given all names.
* `Program.Spells` — what steps of a listing do.

## Main results

* `spells_nameOf`, `Spells.bind`, `spells_mapM` — the steps.
* `Spells.unchanged` — steps that find all names given.
* `eq_of_spelling_eq` — values that are not arguments have different names.
-/

namespace FlowFacts.Program

variable {p : Program} {n N : Naming} {v w : ValueId} {α β : Type} {m : StateM Naming α}
  {r : Naming → α} {vs : List ValueId}

/-- The name of `v`, if it is an argument of `f`. -/
def argument? (p : Program) (f : Function) (v : ValueId) : Option String :=
  match p.value v with
  | .parameter .. => f.argName? v
  | _ => none

/-- The name of `v`, given all names `N` of a listing. -/
def spelling (p : Program) (N : Naming) (v : ValueId) : String :=
  (p.argument? N.function v).getD (numberedName (N.named.idxOf v))

/-- Steps `m` of a listing from the names `n` on: their result, given all names of the listing,
and the values mentioned. -/
structure Spells (p : Program) (m : StateM Naming α) (n : Naming) (result : Naming → α)
    (mentioned : List ValueId) : Prop where
  /-- The function stays. -/
  function : (m n).2.function = n.function
  /-- Names that were given stay. -/
  grows : n.named <+: (m n).2.named
  /-- The result is known from all names. -/
  result : ∀ N, N.function = n.function → (m n).2.named <+: N.named → (m n).1 = result N
  /-- What is mentioned gets a name. -/
  mem : ∀ v, v ∈ (m n).2.named ↔
    v ∈ n.named ∨ v ∈ mentioned ∧ p.argument? n.function v = none
  /-- Each name is given once. -/
  nodup : n.named.Nodup → (m n).2.named.Nodup

theorem spells_pure (p : Program) (a : α) (n : Naming) :
    p.Spells (pure a) n (fun _ => a) [] where
  function := rfl
  grows := List.prefix_rfl
  result _ _ _ := rfl
  mem v := by
    change v ∈ n.named ↔ _
    simp
  nodup h := h

theorem Spells.bind {k : α → StateM Naming β} {t : α → Naming → β} {vs ws : List ValueId}
    (h : p.Spells m n r vs) (hk : ∀ a, p.Spells (k a) (m n).2 (t a) ws) :
    p.Spells (m >>= k) n (fun N => t (r N) N) (vs ++ ws) where
  function := (hk _).function.trans h.function
  grows := h.grows.trans (hk _).grows
  result N hN hgrows := by
    have hm := h.result N hN ((hk _).grows.trans hgrows)
    rw [← hm]
    exact (hk _).result N (hN.trans h.function.symm) hgrows
  mem v := by
    rw [show ((m >>= k) n).2 = (k (m n).1 (m n).2).2 from rfl, (hk _).mem, h.mem, h.function,
      List.mem_append]
    tauto
  nodup hn := (hk _).nodup (h.nodup hn)

theorem Spells.map (h : p.Spells m n r vs) (g : α → β) :
    p.Spells (do return g (← m)) n (fun N => g (r N)) vs := by
  have hbind := h.bind fun a => spells_pure p (g a) (m n).2
  rwa [List.append_nil] at hbind

/-- The values mentioned, `vs`, count as a set, apart from those that have names. -/
theorem Spells.congr {r t : Naming → α} {vs ws : List ValueId} (h : p.Spells m n r vs)
    (hr : ∀ N, r N = t N) (hvs : ∀ v ∉ n.named, v ∈ vs ↔ v ∈ ws) :
    p.Spells m n t ws where
  function := h.function
  grows := h.grows
  result N hN hgrows := (h.result N hN hgrows).trans (hr N)
  mem v := by
    rw [h.mem]
    by_cases hv : v ∈ n.named
    · simp [hv]
    · rw [hvs v hv]
  nodup := h.nodup

/-- Only the run from the names `n` at hand matters. -/
theorem Spells.of_eq {m m' : StateM Naming α} (h : p.Spells m n r vs) (hm : m' n = m n) :
    p.Spells m' n r vs where
  function := hm ▸ h.function
  grows := hm ▸ h.grows
  result := hm ▸ h.result
  mem := hm ▸ h.mem
  nodup := hm ▸ h.nodup

/-- Steps that mention only values with names, or arguments, give no names. -/
theorem Spells.unchanged (h : p.Spells m n r vs) (hn : n.named.Nodup)
    (hvs : ∀ v ∈ vs, p.argument? n.function v = none → v ∈ n.named) : m n = (r n, n) := by
  have hnamed : (m n).2.named = n.named := by
    obtain ⟨new, hnew⟩ := h.grows
    have hnodup := h.nodup hn
    rw [← hnew] at hnodup
    cases new with
    | nil => rw [← hnew, List.append_nil]
    | cons w new =>
      -- a name that is new would be that of a value with a name
      have hw : w ∈ (m n).2.named := by rw [← hnew]; simp
      have hold : w ∈ n.named := by
        rcases (h.mem w).1 hw with hold | ⟨hmem, hargument⟩
        · exact hold
        · exact hvs w hmem hargument
      exact absurd rfl ((List.nodup_append.1 hnodup).2.2 w hold w List.mem_cons_self)
  have hstate : (m n).2 = n := congrArg₂ Naming.mk h.function hnamed
  exact Prod.ext (h.result n rfl (hnamed ▸ List.prefix_rfl)) hstate

theorem spells_mapM {xs : List α} {g : α → StateM Naming β} {r : α → Naming → β}
    {u : α → List ValueId} : ∀ {n : Naming}, (∀ x ∈ xs, ∀ n, p.Spells (g x) n (r x) (u x)) →
      p.Spells (xs.mapM g) n (fun N => xs.map (r · N)) (xs.flatMap u) := by
  induction xs with
  | nil =>
    intro n h
    exact spells_pure p [] n
  | cons x xs ih =>
    intro n h
    rw [List.forall_mem_cons] at h
    have hhead := h.1 n
    have htail := ih (n := (g x n).2) h.2
    rw [List.mapM_cons]
    exact hhead.bind fun y => htail.map (y :: ·)

/-! ### Single names -/

theorem idxOf_of_prefix {l l' : List ValueId} (h : l <+: l') (hv : v ∈ l) :
    l'.idxOf v = l.idxOf v := by
  obtain ⟨t, rfl⟩ := h
  exact List.idxOf_append_of_mem hv

theorem nameOf_eq (p : Program) (v : ValueId) (n : Naming) :
    p.nameOf v n = match p.argument? n.function v with
      | some name => (name, n)
      | none =>
          match n.named.idxOf? v with
          | some i => (numberedName i, n)
          | none => (numberedName n.named.length, { n with named := n.named ++ [v] }) :=
  rfl

theorem nameOf_argument {name : String} (h : p.argument? n.function v = some name) :
    p.nameOf v n = (name, n) := by
  rw [nameOf_eq, h]

theorem nameOf_mem (h : p.argument? n.function v = none) (hv : v ∈ n.named) :
    p.nameOf v n = (numberedName (n.named.idxOf v), n) := by
  have hindex : n.named.idxOf? v = some (n.named.idxOf v) := by
    rw [List.idxOf?_eq_some_iff]
    refine ⟨List.idxOf_lt_length_iff.2 hv, List.getElem_idxOf _, fun j hj hlist => ?_⟩
    exact absurd hlist (by simpa using List.not_of_lt_findIdx hj)
  rw [nameOf_eq, h, hindex]

theorem nameOf_notMem (h : p.argument? n.function v = none) (hv : v ∉ n.named) :
    p.nameOf v n = (numberedName n.named.length, { n with named := n.named ++ [v] }) := by
  rw [nameOf_eq, h, List.idxOf?_eq_none_iff.2 hv]

/-- The value `v` is called by its name among all names. -/
theorem spells_nameOf (p : Program) (v : ValueId) (n : Naming) :
    p.Spells (p.nameOf v) n (fun N => p.spelling N v) [v] := by
  cases harg : p.argument? n.function v with
  -- an argument keeps the name that is written
  | some name =>
    have hname := nameOf_argument harg
    refine ⟨by rw [hname], hname ▸ List.prefix_rfl, fun N hN _ => ?_, fun w => ?_,
      fun hn => by rwa [hname]⟩
    · rw [hname, spelling, hN, harg]
      rfl
    · rw [hname, List.mem_singleton]
      constructor
      · exact Or.inl
      · rintro (hw | ⟨rfl, hw⟩)
        · exact hw
        · rw [harg] at hw
          cases hw
  | none =>
    by_cases hv : v ∈ n.named
    · -- a value that has a name is called by it
      have hname := nameOf_mem harg hv
      refine ⟨by rw [hname], hname ▸ List.prefix_rfl, fun N hN hgrows => ?_, fun w => ?_,
        fun hn => by rwa [hname]⟩
      · rw [hname] at hgrows ⊢
        rw [spelling, hN, harg, idxOf_of_prefix hgrows hv]
        rfl
      · rw [hname, List.mem_singleton]
        constructor
        · exact Or.inl
        · rintro (hw | ⟨rfl, -⟩)
          · exact hw
          · exact hv
    · -- any other value gets the next number
      have hname := nameOf_notMem harg hv
      refine ⟨by rw [hname], ?_, fun N hN hgrows => ?_, fun w => ?_, fun hn => ?_⟩
      · rw [hname]
        exact List.prefix_append _ _
      · rw [hname] at hgrows ⊢
        have hlast : (n.named ++ [v]).idxOf v = n.named.length := by
          rw [List.idxOf_append_of_notMem hv]
          simp
        rw [spelling, hN, harg, idxOf_of_prefix hgrows (by simp), hlast]
        rfl
      · rw [hname, List.mem_append, List.mem_singleton]
        constructor
        · rintro (hw | rfl)
          · exact Or.inl hw
          · exact Or.inr ⟨rfl, harg⟩
        · rintro (hw | ⟨rfl, -⟩)
          · exact Or.inl hw
          · exact Or.inr rfl
      · rw [hname]
        exact List.nodup_append.2 ⟨hn, List.nodup_singleton v, by
          intro w hw x hx
          rw [List.mem_singleton.1 hx]
          rintro rfl
          exact hv hw⟩

theorem numberedName_injective {i j : Nat} (h : numberedName i = numberedName j) : i = j := by
  have hchars : ("v" ++ i.repr).toList = ("v" ++ j.repr).toList := congrArg String.toList h
  rw [String.toList_append, String.toList_append, List.append_cancel_left_eq,
    Nat.toList_repr, Nat.toList_repr] at hchars
  -- the number can be read back from its digits
  have hvalue := congrArg (Nat.ofDigitChars 10 · 0) hchars
  simpa only [Nat.ofDigitChars_ten_toDigits] using hvalue

/-- Values `v` and `w` that are not arguments have different names. -/
theorem eq_of_spelling_eq (hv : p.argument? N.function v = none) (hvN : v ∈ N.named)
    (hw : p.argument? N.function w = none) (h : p.spelling N v = p.spelling N w) : v = w := by
  rw [spelling, spelling, hv, hw] at h
  have hindex := numberedName_injective h
  exact (List.idxOf_inj hvN).1 hindex

end FlowFacts.Program
