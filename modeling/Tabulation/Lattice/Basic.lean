/-
Value lattices, and the check of their laws on samples.

A value lattice is a join with two extremes: `bottom` means that
nothing is known yet and is neutral for the join, `top` means that
everything is possible and absorbs. The order is the one the join
induces. None of this is promised by the type. A problem may bring a
join of its own, so the laws are checked on samples before a solver
starts, and what the check found is kept as a value.
-/

namespace Tabulation

/-- A join on values, with the two extremes. -/
structure ValueLattice (L : Type) where
  join : L → L → L
  top : L
  bottom : L

/-- A law of lattices that fails on the values named. -/
inductive LawViolation (L : Type) where
  | extremesCoincide (value : L)
  | notIdempotent (value : L)
  | bottomNotNeutral (value : L)
  | topNotAbsorbing (value : L)
  | notCommutative (value other : L)
  | notUpperBound (value other joined : L)
deriving DecidableEq, Repr

namespace LawViolation

/-- The law that fails, in words. -/
def message {L : Type} [ToString L] : LawViolation L → String
  | extremesCoincide v => s!"top and bottom coincide ({v})"
  | notIdempotent v => s!"join is not idempotent on {v}"
  | bottomNotNeutral v => s!"bottom is not neutral for {v}"
  | topNotAbsorbing v => s!"top does not absorb {v}"
  | notCommutative v o => s!"join is not commutative on {v}, {o}"
  | notUpperBound v o j => s!"join of {v} and {o} is not an upper bound ({j})"

end LawViolation

namespace ValueLattice

variable {L : Type} [DecidableEq L] (S : ValueLattice L)

/-- The order of the join: `a` is below `b` if joining it to `b`
changes nothing. -/
def leq (a b : L) : Bool := decide (S.join a b = b)

/-- Whether a value is the top. -/
def isTop (a : L) : Bool := decide (a = S.top)

/-- Whether a value is the bottom. -/
def isBottom (a : L) : Bool := decide (a = S.bottom)

/-- The law that fails between two values, if one does. -/
def violationBetween? (v o : L) : Option (LawViolation L) :=
  let j := S.join v o
  if j ≠ S.join o v then some (.notCommutative v o)
  else if !S.leq v j || !S.leq o j then some (.notUpperBound v o j)
  else none

/-- The first law that fails at a value, alone or against the probes. -/
def violationAt? (probes : List L) (v : L) : Option (LawViolation L) :=
  if S.join v v ≠ v then some (.notIdempotent v)
  else if S.join v S.bottom ≠ v then some (.bottomNotNeutral v)
  else if S.join v S.top ≠ S.top then some (.topNotAbsorbing v)
  else probes.findSome? (S.violationBetween? v)

/-- The values the laws are tried on: both extremes, then the samples. -/
def probes (samples : List L) : List L := S.top :: S.bottom :: samples

/-- The first law that fails on the extremes and the samples, if one
does. -/
def violation? (samples : List L) : Option (LawViolation L) :=
  if S.top = S.bottom then some (.extremesCoincide S.top)
  else (S.probes samples).findSome? (S.violationAt? (S.probes samples))

theorem leq_iff {a b : L} : S.leq a b = true ↔ S.join a b = b := by
  simp [leq]

end ValueLattice

end Tabulation
