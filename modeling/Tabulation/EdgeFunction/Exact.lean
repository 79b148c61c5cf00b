/-
Linear functions over all whole numbers, and compositions in any
grouping.

Words have a range, whole numbers have none. `evalExact` is what a
linear function would do without a range; what the solver computes is
that, or the top. A grouping is one way to put parentheses into a chain
of compositions.
-/
import Tabulation.EdgeFunction.Linear

namespace Tabulation

/-- A constant of any size, between the two extremes. -/
inductive ExactValue where
  | bottom
  | int (i : Int)
  | top
deriving DecidableEq, Repr

namespace ConstValue

/-- A value without its range. -/
def toExact : ConstValue → ExactValue
  | bottom => .bottom
  | const c => .int c.val
  | top => .top

end ConstValue

namespace LinearEdge

/-- The function a code stands for over all whole numbers. -/
def evalExact : LinearEdge → ExactValue → ExactValue
  | allBottom, _ => .bottom
  | allTop, _ => .top
  | identity, v => v
  | const c, _ => .int c.val
  | linear a b, .int x => .int (a.val * x + b.val)
  | linear _ _, .bottom => .bottom
  | linear _ _, .top => .top

/-- Apply functions one after the other over all whole numbers. -/
def evalExactAll (fs : List LinearEdge) (v : ExactValue) : ExactValue :=
  fs.foldl (fun v f => f.evalExact v) v

end LinearEdge

/-- One way to group a chain of compositions. -/
inductive Grouping (W : Type) where
  | single (w : W)
  | pair (first second : Grouping W)
deriving Repr

namespace Grouping

variable {W : Type}

/-- The chain that is grouped. -/
def chain : Grouping W → List W
  | single w => [w]
  | pair f s => f.chain ++ s.chain

/-- Compose as grouped. -/
def compose (comp : W → W → W) : Grouping W → W
  | single w => w
  | pair f s => comp (f.compose comp) (s.compose comp)

end Grouping

end Tabulation
