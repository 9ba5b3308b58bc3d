import FlowFacts.Program.Basic

/-!
# Building programs

The operations that grow a program.  Each appends to the tables of the program, so
everything that exists keeps its position.  A new block gets a label that no other
block of its function has; a branch records its block as a predecessor of its targets.

## Main definitions

* `Program.addModule`, `addFunction`, `addBlock`, `addParameter`, `addConstant`.
* `Program.append` — append an instruction to a block.
* `Program.uniqueLabel` — a label that is not in use.
-/

namespace FlowFacts.Program

/-- Add the value `v` to the program. -/
def addValue (v : Value) : StateM Program ValueId := fun p =>
  (⟨p.values.size⟩, { p with values := p.values.push v })

/-- Add the constant `c`.  Constants belong to no block, and equal ones are not shared. -/
def addConstant (c : Constant) : StateM Program ValueId := addValue (.constant c)

/-- Change the block `b` in place. -/
def modifyBlock (b : BlockId) (change : Block → Block) : StateM Program Unit := fun p =>
  ((), { p with blocks := p.blocks.modify b.index change })

/-- Change the function `f` in place. -/
def modifyFunction (f : FunctionId) (change : Function → Function) : StateM Program Unit := fun p =>
  ((), { p with functions := p.functions.modify f.index change })

/-! ### Labels -/

/-- The labels of the blocks of `f`. -/
def labels (p : Program) (f : FunctionId) : List String :=
  (p.function f).blocks.map fun b => (p.block b).label

/-- Lengthen a label by `next`, `next + 1`, … as long as it is taken, `n` times at most.
The result comes with the number to go on from. -/
def freeLabel (taken : List String) : Nat → String → Nat → String × Nat
  | 0, label, next => (label, next)
  | n + 1, label, next =>
      if label ∈ taken then freeLabel taken n (label ++ toString next) (next + 1)
      else (label, next)

/-- A label for a new block of `f`: the `hint` if it is not taken, else the hint with numbers
appended until it is not.  Without a hint the label is `block` and a number.  Every number is
used once.  A label that was lengthened differs from those before it, so it is free after as many
steps as there are labels. -/
def uniqueLabel (f : FunctionId) (hint : Option String) : StateM Program String := fun p =>
  let taken := p.labels f
  let next := (p.function f).nextLabel
  let (label, next) :=
    match hint with
    | some hint => freeLabel taken taken.length hint next
    | none => freeLabel taken taken.length ("block" ++ toString next) (next + 1)
  (label, (modifyFunction f (fun fn => { fn with nextLabel := next }) p).2)

/-! ### Modules, functions, blocks, parameters -/

/-- Add an empty module. -/
def addModule : StateM Program ModuleId := fun p =>
  (⟨p.modules.size⟩, { p with modules := p.modules.push [] })

/-- Add a parameter to the block `b`. -/
def addParameter (b : BlockId) (ty : Ty) : StateM Program ValueId := do
  let index := ((← get).block b).params.length
  let v ← addValue (.parameter b index ty)
  modifyBlock b fun block => { block with params := block.params ++ [v] }
  return v

/-- Add a block to the function `f`. -/
def addBlock (f : FunctionId) (hint : Option String) : StateM Program BlockId := do
  let label ← uniqueLabel f hint
  let b : BlockId := ⟨(← get).blocks.size⟩
  modify fun p => { p with blocks := p.blocks.push { label, function := f } }
  modifyFunction f fun fn => { fn with others := fn.others ++ [b] }
  return b

/-- Add a function to the module `m`.  Its entry block is labelled `entry`, and its arguments
become parameters of that block. -/
def addFunction (m : ModuleId) (path : List String) (args : List (String × Ty))
    (returnType : Ty) (isDeclaration : Bool) : StateM Program FunctionId := do
  let p ← get
  let f : FunctionId := ⟨p.functions.size⟩
  let entry : BlockId := ⟨p.blocks.size⟩
  set { p with
    modules := p.modules.modify m.index (· ++ [f])
    functions := p.functions.push { path, returnType, entry, isDeclaration }
    blocks := p.blocks.push { label := "entry", function := f } }
  let args ← args.mapM fun (name, ty) => return (name, ← addParameter entry ty)
  modifyFunction f fun fn => { fn with args }
  return f

/-! ### Instructions -/

/-- Record that the block `source` branches to `b`. -/
def addPred (b source : BlockId) : StateM Program Unit :=
  modifyBlock b fun block =>
    if source ∈ block.preds then block else { block with preds := block.preds ++ [source] }

/-- Append the instruction `op` to the block `b`. -/
def append (b : BlockId) (op : Operation) : StateM Program ValueId := do
  for target in op.targets do
    addPred target.block b
  let v ← addValue (.instruction b op)
  modifyBlock b fun block => { block with instructions := block.instructions ++ [v] }
  return v

end FlowFacts.Program
