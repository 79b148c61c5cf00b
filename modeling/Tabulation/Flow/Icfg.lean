/-
What a solver asks of a program's control flow.

An `Icfg` answers the questions of the solver at one moment. Call
targets may be found while a solver runs: then the graph behind it
grows, the next `Icfg` taken of it lists more callees, and `revision`
has moved on.
-/
import Tabulation.Flow.Point

namespace Tabulation

/-- An interprocedural control-flow graph, seen through the solver's
questions. `none` from a question about a node means that no procedure
owns the node. -/
structure Icfg where
  /-- The procedure that owns a node. -/
  procOf? : Node → Option Proc
  /-- The successors of a node inside its procedure. -/
  successors : Node → List Node
  /-- The start of a procedure; a procedure without a body has none. -/
  start? : Proc → Option Node
  /-- Whether a node is an exit of its procedure. -/
  isExit? : Node → Option Bool
  /-- Whether a node is a call site. -/
  isCall : Node → Bool
  /-- The procedures known to be called at a call site. -/
  callees : Node → List Proc
  /-- The call sites of a procedure. -/
  callsWithin : Proc → List Node
  /-- The node a call returns to. -/
  returnSite? : Node → Option Node
  /-- A number that moves on whenever a call site gets a further
  callee. -/
  revision : Nat

namespace Icfg

/-- Whether a node is the start of the procedure that owns it. -/
def isStart? (I : Icfg) (n : Node) : Option Bool :=
  (I.procOf? n).map fun p => decide (I.start? p = some n)

end Icfg

end Tabulation
