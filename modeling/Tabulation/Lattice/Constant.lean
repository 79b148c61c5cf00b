/-
The lattice of constant propagation: no value yet, one constant, or no
constant.
-/
import Tabulation.Lattice.Basic
import Tabulation.Word

namespace Tabulation

/-- What is known of a variable's value. -/
inductive ConstValue where
  /-- No value has been seen. -/
  | bottom
  /-- Only this value has been seen. -/
  | const (c : Word)
  /-- Not a constant. -/
  | top
deriving DecidableEq, Repr, Inhabited

namespace ConstValue

instance : ToString ConstValue where
  toString
    | bottom => "Bottom"
    | const c => s!"Const({c})"
    | top => "Top"

/-- Two different constants are no constant. -/
def join : ConstValue → ConstValue → ConstValue
  | bottom, v => v
  | v, bottom => v
  | const a, const b => if a = b then const a else top
  | _, _ => top

/-- The lattice of constant propagation. -/
def lattice : ValueLattice ConstValue where
  join := join
  top := top
  bottom := bottom

end ConstValue

end Tabulation
