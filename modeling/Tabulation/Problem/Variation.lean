/-
Variations of a problem: the same flow functions with something
changed.

Triggers make a problem ask for things when a node is passed. The other
variations weaken or distort the treatment of the zero fact, or
withhold what is known about identity nodes; results must stand up to
all of them.
-/
import Tabulation.Problem.Basic

namespace Tabulation

/-- A request that is made whenever a normal flow out of a node is
evaluated. -/
structure Trigger where
  node : Node
  request : Request
deriving DecidableEq, Repr

namespace Trigger

/-- The requests made on an edge, in the order of the triggers. -/
def fired (triggers : List Trigger) : FlowEdge → List Request
  | .normal node _ =>
    (triggers.filter fun t => decide (t.node = node)).map Trigger.request
  | _ => []

end Trigger

namespace Problem

variable {D W L : Type}

/-- The problem with triggers set. -/
def withTriggers (P : Problem D W L) (triggers : List Trigger) :
    Problem D W L :=
  { P with requests := fun _ edge _ => Trigger.fired triggers edge }

/-- The problem without knowledge of identity nodes. -/
def withoutIdentityNodes (P : Problem D W L) : Problem D W L :=
  { P with isIdentityAt := fun _ => .ok false }

variable [DecidableEq D]

/-- Change what the flow functions answer, by the edge and the fact
before it. -/
def mapTargets (P : Problem D W L)
    (f : FlowEdge → D → List (D × W) → List (D × W)) : Problem D W L :=
  { P with
    flow := fun edge d => (P.flow edge d).map (f edge d)
    returnFlow := fun edge d callFact =>
      (P.returnFlow edge d callFact).map (f edge d) }

/-- The problem in which zero targets carry another edge function. -/
def reweighZero (P : Problem D W L) (w : W) : Problem D W L :=
  P.mapTargets fun _ _ targets => targets.map fun (d, v) =>
    (d, if d = P.zero then w else v)

/-- The problem in which nothing flows from zero along the normal edges
out of the given nodes, whatever stands there. -/
def dropZeroAt (P : Problem D W L) (nodes : List Node) : Problem D W L :=
  let drops : FlowEdge → D → Bool
    | .normal node _, d => decide (node ∈ nodes ∧ d = P.zero)
    | _, _ => false
  { P with
    flow := fun edge d => if drops edge d then .ok [] else P.flow edge d
    returnFlow := fun edge d callFact =>
      if drops edge d then .ok [] else P.returnFlow edge d callFact }

end Problem

end Tabulation
