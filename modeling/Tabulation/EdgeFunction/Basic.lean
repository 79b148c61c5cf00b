/-
Edge functions: what an edge of the supergraph does to the value of a
fact.

An algebra of edge functions gives codes `W` for functions on a value
lattice: `eval` is their meaning, and `comp` and `join` work on the
codes. Nothing is promised of them by the type. A problem may bring its
own, and a solver that was asked to be careful probes every join on
sample values with `isUpperBound`.
-/
import Tabulation.Lattice.Basic

namespace Tabulation

/-- Codes for functions on the values `L`. -/
structure EdgeFunctions (W L : Type) where
  /-- The function a code stands for. -/
  eval : W → L → L
  /-- First the one, then the other. -/
  comp : W → W → W
  /-- A function above both. -/
  join : W → W → W
  identity : W
  allTop : W
  allBottom : W

namespace EdgeFunctions

variable {W L : Type} [DecidableEq L] (E : EdgeFunctions W L)
variable (S : ValueLattice L)

/-- Whether `joined` is above `f` and `g` at one value. -/
def isAbove (joined f g : W) (input : L) : Bool :=
  let target := E.eval joined input
  S.leq (E.eval f input) target && S.leq (E.eval g input) target

/-- Whether `joined` is above `f` and `g` at both extremes and at the
samples. -/
def isUpperBound (joined f g : W) (samples : List L) : Bool :=
  (S.bottom :: S.top :: samples).all (E.isAbove S joined f g)

end EdgeFunctions

end Tabulation
