/-
Reachability problems: which facts can hold where.

A reachability problem has flow functions but no values. It is solved
as a problem over the two-point lattice in which every edge carries the
identity and every seed is reached, so that a fact is worth the top
exactly where it holds.
-/
import Tabulation.EdgeFunction.Binary
import Tabulation.Problem.Basic
import Tabulation.Problem.FlowFunction

namespace Tabulation

/-- A problem without values over the facts `D`. -/
structure ReachabilityProblem (D : Type) where
  /-- The fact that always holds. -/
  zero : D
  /-- Procedures that are entered with the zero fact. -/
  entries : List Proc
  /-- Further facts to start from. -/
  seeds : List (Node × D) := []
  /-- The facts after an edge, given one before it. -/
  flow : FlowEdge → D → Except Fault (List D)
  /-- The facts after a return edge, given one at the exit and the one
  that held at the call site. -/
  returnFlow : FlowEdge → D → D → Except Fault (List D) :=
    fun edge d _ => flow edge d
  /-- Whether every fact passes a node unchanged. -/
  isIdentityAt : Node → Except Fault Bool := fun _ => .ok false
  /-- What is asked for during an evaluation. -/
  requests : Nat → FlowEdge → D → List Request := fun _ _ _ => []

namespace ReachabilityProblem

variable {D : Type}

/-- The problem over the two-point lattice. -/
def toProblem (P : ReachabilityProblem D) : Problem D BinaryEdge Binary where
  lattice := Binary.lattice
  functions := BinaryEdge.functions Binary.lattice
  zero := P.zero
  entries := P.entries
  seeds := P.seeds.map fun (node, fact) => { node, fact, value := .top }
  initial := .top
  flow edge d := (P.flow edge d).map fun facts =>
    FlowFunction.withWeight facts .identity
  returnFlow edge d callFact :=
    (P.returnFlow edge d callFact).map fun facts =>
      FlowFunction.withWeight facts .identity
  isIdentityAt := P.isIdentityAt
  requests := P.requests

end ReachabilityProblem

end Tabulation
