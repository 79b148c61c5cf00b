/-
The three edge functions that plain reachability needs. They make sense
over every value lattice.
-/
import Tabulation.EdgeFunction.Basic
import Tabulation.Lattice.Binary

namespace Tabulation

/-- The constant functions to the extremes, and the identity. -/
inductive BinaryEdge where
  | allBottom
  | allTop
  | identity
deriving DecidableEq, Repr, Inhabited

namespace BinaryEdge

instance : ToString BinaryEdge where
  toString
    | allBottom => "AllBottom"
    | allTop => "AllTop"
    | identity => "Identity"

/-- The function a code stands for. -/
def eval {L : Type} (S : ValueLattice L) : BinaryEdge → L → L
  | allBottom, _ => S.bottom
  | allTop, _ => S.top
  | identity, v => v

/-- First the one, then the other. -/
def comp : BinaryEdge → BinaryEdge → BinaryEdge
  | _, allBottom => allBottom
  | _, allTop => allTop
  | f, identity => f

/-- The function above both. -/
def join : BinaryEdge → BinaryEdge → BinaryEdge
  | allTop, _ => allTop
  | _, allTop => allTop
  | allBottom, g => g
  | f, allBottom => f
  | identity, identity => identity

/-- The algebra over a value lattice. -/
def functions {L : Type} (S : ValueLattice L) : EdgeFunctions BinaryEdge L where
  eval := eval S
  comp := comp
  join := join
  identity := identity
  allTop := allTop
  allBottom := allBottom

end BinaryEdge

end Tabulation
