import FlowFacts.Program.Basic

/-!
# Known checks

A check is a call that does not return if its condition is false, so the condition holds
after it.  The catalogue says how such calls are recognised and which of their arguments
is the condition.

## Main definitions

* `CheckVariant` — a kind of call that is a check.
* `Catalogue` — the known variants, told apart by path and number of arguments.
* `Catalogue.ofList`, `Catalogue.standard`, `Catalogue.lookup?`.
-/

namespace FlowFacts

/-- The kinds of checks. -/
inductive CheckKind where
  /-- A check in every build. -/
  | check
  /-- A check in debug builds. -/
  | debugCheck
  /-- A check that reports the system's last error. -/
  | systemCheck
  /-- A report of the system's last error that has no condition. -/
  | systemFailure
  /-- A check in debug builds that reports the system's last error. -/
  | debugSystemCheck
  deriving DecidableEq, Repr, Inhabited

/-- The calls that are a check of some kind. -/
structure CheckVariant where
  /-- The kind of check. -/
  kind : CheckKind
  /-- The qualified name of the callee. -/
  path : List String
  /-- The number of arguments of the callee. -/
  arity : Nat
  /-- The position of the condition among the arguments, if there is one. -/
  condition : Option Nat
  deriving DecidableEq, Repr, Inhabited

namespace CheckVariant

/-- What a callee is recognised by as `v`. -/
def key (v : CheckVariant) : List String × Nat := (v.path, v.arity)

/-- The variant `v` in characters: qualified name and number of arguments. -/
def text (v : CheckVariant) : String := pathText v.path ++ "/" ++ toString v.arity

/-- The standard variant of a kind. -/
def standard : CheckKind → CheckVariant
  | .check => ⟨.check, ["logging", "CheckError", "Check"], 3, some 2⟩
  | .debugCheck => ⟨.debugCheck, ["logging", "CheckError", "DCheck"], 3, some 2⟩
  | .systemCheck => ⟨.systemCheck, ["logging", "CheckError", "PCheck"], 3, some 2⟩
  | .systemFailure => ⟨.systemFailure, ["logging", "CheckError", "PCheck"], 2, none⟩
  | .debugSystemCheck => ⟨.debugSystemCheck, ["logging", "CheckError", "DPCheck"], 4, some 3⟩

/-- The first variant of a list whose callee is in `seen` or belongs to an earlier variant. -/
def firstRepeat? (seen : List (List String × Nat)) : List CheckVariant → Option CheckVariant
  | [] => none
  | v :: rest => if v.key ∈ seen then some v else firstRepeat? (v.key :: seen) rest

/-- Without a repetition, all callees of `vs` are different. -/
theorem nodup_of_firstRepeat?_eq_none {vs : List CheckVariant} :
    ∀ {seen : List (List String × Nat)}, firstRepeat? seen vs = none →
      (vs.map key).Nodup ∧ ∀ k ∈ vs.map key, k ∉ seen := by
  induction vs with
  | nil => exact fun _ => ⟨List.nodup_nil, by simp⟩
  | cons v rest ih =>
      intro seen h
      simp only [firstRepeat?] at h
      split at h
      · simp at h
      · rename_i hv
        obtain ⟨hrest, hnew⟩ := ih h
        refine ⟨List.nodup_cons.2 ⟨fun hmem => hnew _ hmem (by simp), hrest⟩, fun k hk => ?_⟩
        rcases List.mem_cons.1 hk with rfl | hk
        · exact hv
        · exact fun hseen => hnew k hk (List.mem_cons_of_mem _ hseen)

end CheckVariant

/-- The known variants of checks. -/
structure Catalogue where
  /-- The variants, in order. -/
  variants : List CheckVariant
  /-- No callee belongs to two variants. -/
  distinct : (variants.map CheckVariant.key).Nodup

/-- Two variants have one callee. -/
structure DuplicateVariant where
  /-- The later of them. -/
  variant : CheckVariant
  deriving DecidableEq, Repr, Inhabited

/-- The text of the error. -/
def DuplicateVariant.message (d : DuplicateVariant) : String :=
  "duplicate call variant " ++ d.variant.text ++ " in catalog"

namespace Catalogue

/-- The catalogue with some `variants`; the first that repeats an earlier callee is refused. -/
def ofList (variants : List CheckVariant) : Except DuplicateVariant Catalogue :=
  match h : CheckVariant.firstRepeat? [] variants with
  | none => .ok ⟨variants, (CheckVariant.nodup_of_firstRepeat?_eq_none h).1⟩
  | some v => .error ⟨v⟩

/-- The catalogue of the standard variants. -/
def standard : Catalogue where
  variants := [.standard .check, .standard .debugCheck, .standard .systemCheck,
    .standard .systemFailure, .standard .debugSystemCheck]
  distinct := by decide

/-- The variant with exactly this qualified name, `path`, and number of arguments, `arity`. -/
def lookup? (c : Catalogue) (path : List String) (arity : Nat) : Option CheckVariant :=
  c.variants.find? fun v => v.arity == arity && v.path == path

/-- The variant that calls to `f` are. -/
def lookupCallee? (c : Catalogue) (p : Program) (f : FunctionId) : Option CheckVariant :=
  c.lookup? (p.function f).path (p.function f).arity

end Catalogue

end FlowFacts
