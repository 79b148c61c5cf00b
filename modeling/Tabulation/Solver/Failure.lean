/-
Why a run has no results.

A `SolveError` is the solver's verdict: on how it was set up, on a
lattice or a join that breaks its laws, or on its own tables. The other
two ways to fail are not verdicts: a fault is a question that the graph
or the problem could not answer, and a run that is out of fuel was not
given enough steps.
-/
import Tabulation.Flow.Point
import Tabulation.Lattice.Basic

namespace Tabulation

/-- A gap in the solver's tables. -/
inductive Gap where
  /-- A pending path edge to this node has no jump function. -/
  | jumpFunction (node : Node)
  /-- The procedure of this exit has no start. -/
  | startOf (exit : Node) (proc : Proc)
  /-- A caller of this procedure has no call flow for the entry it
  made. -/
  | callFlow (site : Node) (callee : Proc)
  /-- A pending value at this node is missing. -/
  | value (node : Node)
deriving DecidableEq, Repr

namespace Gap

/-- A gap in words. -/
def message : Gap → String
  | jumpFunction node => s!"path edge to {node} without a jump function"
  | startOf exit proc => s!"exit {exit} of {proc} without a start point"
  | callFlow site callee =>
    s!"incoming edge from {site} into {callee} without a call flow"
  | value node => s!"queued value at {node} is missing"

end Gap

/-- The verdict of a solver that refuses to give results. -/
inductive SolveError (D W L : Type) where
  /-- There is nothing to start from. -/
  | noSeeds
  /-- An entry has no body. -/
  | missingStart (proc : Proc)
  /-- A seed is not at the start of a procedure. -/
  | seedNotAtStart (node : Node) (fact : D)
  /-- The lattice breaks a law. -/
  | malformedLattice (violation : LawViolation L)
  /-- A join of edge functions is not above both. -/
  | functionRegressed (node : Node) (fact : D) (previous function joined : W)
  /-- A join of values is not above both. -/
  | valueRegressed (node : Node) (fact : D) (previous value joined : L)
  /-- The tables have a gap. -/
  | inconsistent (gap : Gap)
deriving DecidableEq, Repr

namespace SolveError

variable {D W L : Type}

/-- The kind of a verdict. -/
def kind : SolveError D W L → String
  | noSeeds => "NoSeeds"
  | missingStart _ => "MissingStartNode"
  | seedNotAtStart _ _ => "SeedNotAtStart"
  | malformedLattice _ => "MalformedLattice"
  | functionRegressed .. => "NonMonotoneJoin"
  | valueRegressed .. => "NonMonotoneJoin"
  | inconsistent _ => "Inconsistency"

variable [ToString D] [ToString W] [ToString L]

/-- A verdict in words. -/
def message : SolveError D W L → String
  | noSeeds => "no entry points or initial seeds were supplied"
  | missingStart proc => s!"entry point {proc} has no start node"
  | seedNotAtStart node fact =>
    s!"seed {fact} at {node} is not placed on the start node of its procedure"
  | malformedLattice violation => "malformed lattice: " ++ violation.message
  | functionRegressed node fact previous function joined =>
    s!"join regressed for fact {fact} at {node}: " ++
      s!"{previous} ⊔ {function} = {joined}"
  | valueRegressed node fact previous value joined =>
    s!"join regressed for fact {fact} at {node}: " ++
      s!"{previous} ⊔ {value} = {joined}"
  | inconsistent gap => "inconsistent solver tables: " ++ gap.message

end SolveError

/-- Why a run has no results. -/
inductive Failure (D W L : Type) where
  | rejected (error : SolveError D W L)
  | fault (fault : Fault)
  | outOfFuel
deriving DecidableEq, Repr

end Tabulation
