/-
Flow functions given by rules.

A rule names the kind of edge it is for, the numbers of the nodes and
procedures on the edge as far as they matter, the fact before the edge,
and for a return perhaps the fact at the call site. The first rule that
matches gives the answer.
-/
import Tabulation.Problem.Basic

namespace Tabulation

/-- What a rule says of a fact. -/
inductive FactPattern (D : Type) where
  | any
  | exactly (d : D)
deriving DecidableEq, Repr

namespace FactPattern

variable {D : Type} [DecidableEq D]

/-- Whether a fact is as the pattern says. -/
def matches? : FactPattern D → D → Bool
  | any, _ => true
  | exactly e, d => decide (e = d)

end FactPattern

/-- The numbers along an edge, in the order in which a rule lists them. -/
def FlowEdge.numbers : FlowEdge → List Nat
  | .normal node succ => [node.id, succ.id]
  | .call site callee start => [site.id, callee.id, start.id]
  | .ret site callee exit returnSite =>
    [site.id, callee.id, exit.id, returnSite.id]
  | .callToReturn site returnSite => [site.id, returnSite.id]

/-- One rule of a flow function. -/
structure FlowRule (D W : Type) where
  kind : FlowKind
  /-- The numbers along the edge; `none`, or the end of the list, fits
  all. -/
  numbers : List (Option Nat)
  fact : FactPattern D
  /-- If given, the rule is for return flows with such a fact at the
  call site. -/
  callFact : Option (FactPattern D)
  targets : List (D × W)
deriving Repr

namespace FlowRule

variable {D W : Type} [DecidableEq D]

/-- Whether a rule is for an evaluation; `callFact` is the fact at the
call site if the evaluation is that of a return flow. -/
def applies (rule : FlowRule D W) (edge : FlowEdge) (d : D)
    (callFact : Option D) : Bool :=
  decide (rule.kind = edge.kind) &&
    (rule.numbers.zip edge.numbers).all
      (fun (wanted, actual) => wanted.all (· == actual)) &&
    rule.fact.matches? d &&
    match rule.callFact, callFact with
    | none, _ => true
    | some pattern, some c => pattern.matches? c
    | some _, none => false

/-- The answer of the first rule that applies, or the fallback. -/
def eval (rules : List (FlowRule D W)) (fallback : D → List (D × W))
    (edge : FlowEdge) (d : D) (callFact : Option D) : List (D × W) :=
  match rules.find? fun rule => rule.applies edge d callFact with
  | some rule => rule.targets
  | none => fallback d

end FlowRule

end Tabulation
