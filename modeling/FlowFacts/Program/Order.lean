import FlowFacts.Program.Basic

/-!
# The order of blocks

Blocks are analysed in reverse post-order of a depth-first walk from the entry: a
block comes before the blocks it branches to, unless the branch closes a cycle.
Blocks that the entry does not reach are left out.

## Main definitions

* `Program.postOrder` — the reachable blocks of a function with their numbers.
* `Program.reversePostOrder` — the reachable blocks of a function, the entry first.
-/

namespace FlowFacts.Program

/-- The state of a depth-first walk. -/
structure Walk where
  /-- The blocks met so far. -/
  seen : List BlockId := []
  /-- The blocks left so far, the latest first. -/
  finished : List BlockId := []
  /-- The numbers that they were given, the latest first. -/
  numbers : List (BlockId × Nat) := []
  /-- The next number. -/
  next : Nat := 0
  deriving DecidableEq, Repr, Inhabited

/-- Leave the block `b`, which gets the next number. -/
def Walk.leave (w : Walk) (b : BlockId) : Walk where
  seen := w.seen
  finished := b :: w.finished
  numbers := (b, w.next) :: w.numbers
  next := w.next + 1

/-- Walk from a block, following at most `n` branches on a path.  A block that was met
before is passed over; else its successors are walked in order and then it is left. -/
def walk (p : Program) : Nat → BlockId → Walk → Walk
  | 0, _, w => w
  | n + 1, b, w =>
      if b ∈ w.seen then w
      else
        let w := (p.successors b).foldl (fun w target => p.walk n target.block w)
          { w with seen := b :: w.seen }
        w.leave b

/-- Blocks in post-order. -/
structure PostOrder where
  /-- The blocks, each at its number. -/
  blocks : List BlockId
  /-- The numbers of the blocks. -/
  numbers : List (BlockId × Nat)
  deriving DecidableEq, Repr, Inhabited

namespace PostOrder

/-- The block with the number `n`. -/
def block? (o : PostOrder) (n : Nat) : Option BlockId := o.blocks[n]?

/-- The number of `b`. -/
def number? (o : PostOrder) (b : BlockId) : Option Nat := o.numbers.lookup b

/-- Whether `b` is in the order. -/
def contains (o : PostOrder) (b : BlockId) : Bool := (o.number? b).isSome

end PostOrder

/-- The blocks that `f` reaches from its entry, in post-order.  A path without repetition has at
most as many blocks as the program. -/
def postOrder (p : Program) (f : FunctionId) : PostOrder :=
  let w := p.walk p.blocks.size (p.function f).entry {}
  { blocks := w.finished.reverse, numbers := w.numbers }

/-- The blocks that `f` reaches from its entry, in reverse post-order. -/
def reversePostOrder (p : Program) (f : FunctionId) : List BlockId :=
  (p.postOrder f).blocks.reverse

end FlowFacts.Program
