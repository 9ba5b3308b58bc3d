import FlowFacts.Proofs.Program.Body
import FlowFacts.Proofs.Source.Region

/-!
# Functions refer to their own values

What the instructions of a function refer to are constants, or parameters and instructions of
its own blocks, since a function of a text only uses names that were introduced there.  The
parameters of the entry are the arguments.

## Main definitions

* `Program.Owns` — the parameters and instructions of a function.
* `Program.Local` — what is known of a function of a program that was loaded.

## Main results

* `refersTo_owns` — instructions refer to constants and to values of their function.
* `Source.local_of_load` — the functions of a program that was loaded.
-/

namespace FlowFacts

namespace Program

variable {p : Program} {f : FunctionId} {b : BlockId} {v : ValueId}

/-- The value `v` is a parameter or an instruction of `f`. -/
def Owns (p : Program) (f : FunctionId) (v : ValueId) : Prop :=
  ∃ b ∈ (p.function f).blocks, v ∈ (p.block b).params ∨ v ∈ (p.block b).instructions

/-- An instruction `v` refers to constants and to values in `S` only. -/
def RefersTo (p : Program) (v : ValueId) (S : ValueId → Prop) : Prop :=
  ∀ op, p.operation? v = some op → ∀ w ∈ op.operands, p.constant? w = none → S w

/-- The instructions `v` of a function refer to constants and to its own values. -/
theorem refersTo_owns (hregions : p.Regions p.functions.size) (hbuilt : p.Built)
    (hf : f.index < p.functions.size) (hb : b ∈ (p.function f).blocks)
    (hv : v ∈ (p.block b).instructions) : p.RefersTo v (p.Owns f) := by
  intro op hop w hw hconst
  obtain ⟨vs, bs, -, -, -, -, hregion⟩ := hregions
  have hregion := hregion f hf
  obtain ⟨hfirst, hlast⟩ := hregion.instruction b hb v hv
  have hvalue := hbuilt.instruction_of_mem hv hop
  -- an operand was created with the function, and before the instruction
  have husable := ((hregion.proper hfirst hlast hvalue).operand w hw).1
  have hlt := hbuilt.operand_lt hvalue hw
  have hheld' := hregion.held w husable (Nat.lt_trans hlt hlast)
  unfold Held at hheld'
  cases hval : p.value w with
  | parameter b' i ty =>
    rw [hval] at hheld'
    exact ⟨b', hheld'.1, Or.inl hheld'.2⟩
  | constant x => simp [constant?, hval] at hconst
  | instruction b' op' =>
    rw [hval] at hheld'
    exact ⟨b', hheld'.1, Or.inr hheld'.2.1⟩

/-- What is known of a function `f` of a program that was loaded. -/
structure Local (p : Program) (f : FunctionId) : Prop extends p.HasBody f where
  /-- Instructions refer to constants and to values of the function. -/
  refers : ∀ {b v}, b ∈ (p.function f).blocks → v ∈ (p.block b).instructions →
    p.RefersTo v (p.Owns f)
  /-- The parameters of the entry are the arguments. -/
  entry : (p.block (p.function f).entry).params = (p.function f).args.map Prod.snd

end Program

/-- The functions with bodies of a program that was loaded. -/
theorem Source.local_of_load {text : String} {p : Program} {f : FunctionId}
    (hload : Source.load text = .ok p) (hf : f ∈ p.bodies) : p.Local f := by
  have hbody := Source.hasBody_of_load hload hf
  have hregions := Source.regions_of_load hload
  refine { toHasBody := hbody, refers := fun hb hv => ?_, entry := ?_ }
  · exact Program.refersTo_owns hregions hbody.built hbody.index_lt hb hv
  · obtain ⟨vs, bs, -, -, -, -, hregion⟩ := hregions
    exact (hregion f hbody.index_lt).entry

end FlowFacts
