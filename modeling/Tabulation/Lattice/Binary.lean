/-
The two-point lattice of plain reachability: a fact is reached or it is
not.
-/
import Tabulation.Lattice.Basic

namespace Tabulation

/-- The two values of plain reachability. -/
inductive Binary where
  | bottom
  | top
deriving DecidableEq, Repr, Inhabited

namespace Binary

instance : ToString Binary where
  toString
    | bottom => "Bottom"
    | top => "Top"

/-- Reached on one way is reached. -/
def join : Binary → Binary → Binary
  | bottom, b => b
  | top, _ => top

/-- The lattice of plain reachability. -/
def lattice : ValueLattice Binary where
  join := join
  top := top
  bottom := bottom

end Binary

end Tabulation
