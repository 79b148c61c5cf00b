/-
Problems: what a solver is asked to solve.

A problem names its facts, among them the zero fact that is not one of
its own, its values and edge functions, where it starts, and how facts
flow along an edge. An answer of a flow function is a list of facts
with the edge functions they are reached by. Flow functions are
partial: an edge may lead past a node at which nothing stands.

While it is being evaluated a flow function may ask for something: that
a call site get a further target, or that the run be cancelled. Such
requests are listed by the count of evaluations so far, so that a
problem may ask for anything at any time. A problem that asks for
nothing is pure.
-/
import Tabulation.EdgeFunction.Basic
import Tabulation.Flow.Point

namespace Tabulation

/-- A fact with its initial value, at the start of a procedure. -/
structure Seed (D L : Type) where
  node : Node
  fact : D
  value : L
deriving DecidableEq, Repr

/-- What a flow function may ask for while it is evaluated. -/
inductive Request where
  /-- Let a call site have a further target. -/
  | resolve (site : Node) (target : Proc)
  /-- Stop the run at the next chance. -/
  | cancel
deriving DecidableEq, Repr

/-- A problem over the facts `D`, with edge functions `W` on the values
`L`. -/
structure Problem (D W L : Type) where
  lattice : ValueLattice L
  functions : EdgeFunctions W L
  /-- The fact that always holds. -/
  zero : D
  /-- Procedures that are entered with the zero fact. -/
  entries : List Proc
  /-- Further facts to start from. -/
  seeds : List (Seed D L) := []
  /-- The value of the zero fact at an entry. -/
  initial : L
  /-- Values the lattice and its joins are tried on. -/
  samples : List L := []
  /-- The facts after an edge, given one before it. -/
  flow : FlowEdge → D → Except Fault (List (D × W))
  /-- The facts after a return edge, given one at the exit and the one
  that held at the call site. -/
  returnFlow : FlowEdge → D → D → Except Fault (List (D × W)) :=
    fun edge d _ => flow edge d
  /-- Whether every fact passes a node unchanged, so that its flow
  function need not be asked. -/
  isIdentityAt : Node → Except Fault Bool := fun _ => .ok false
  /-- What is asked for during an evaluation, given the count of
  evaluations before it. -/
  requests : Nat → FlowEdge → D → List Request := fun _ _ _ => []

namespace Problem

variable {D W L : Type}

/-- A problem whose flow functions ask for nothing. -/
def IsPure (P : Problem D W L) : Prop := ∀ k edge d, P.requests k edge d = []

end Problem

end Tabulation
