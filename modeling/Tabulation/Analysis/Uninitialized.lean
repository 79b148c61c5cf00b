/-
Uninitialized variables: which variables may be read before they are
assigned.

A fact is a variable that may have no value. A declaration makes
its variable one, an assignment passes the property on from what it reads
to what it writes, and parameters without an argument start out with
it.
-/
import Tabulation.Analysis.LocalFact
import Tabulation.Problem.Reachability
import Tabulation.Program.Basic

namespace Tabulation.Uninitialized

open LocalFact

/-- What a statement does to a fact on the way to a successor. -/
def normalFlow (s : Stmt) : LocalFact → List LocalFact
  | zero =>
    match s with
    | .decl x => FlowFunction.generate zero zero [var x]
    | _ => [zero]
  | var x =>
    match s with
    | .decl _ => [var x]
    | _ =>
      let read := decide (x ∈ s.reads)
      let kept := if s.writes ≠ some x ∨ read then [var x] else []
      let passed := match s.writes with
        | some y => if read ∧ y ≠ x then [var y] else []
        | none => []
      kept ++ passed

/-- What a call does to a fact on the way into a callee. -/
def callFlow (s : Stmt) (params : List Var) (d : LocalFact) : List LocalFact :=
  match s, d with
  | .call _ args _, zero =>
    FlowFunction.generate zero zero ((params.drop args.length).map var)
  | .call _ args _, d => FlowFunction.transfer d (bindings args params)
  | _, _ => []

/-- What a return does to a fact on the way back to a caller. -/
def returnFlow (callStmt exitStmt : Stmt) : LocalFact → List LocalFact
  | zero => [zero]
  | var x =>
    match callStmt, exitStmt with
    | .call _ _ (some result), .ret (some returned) =>
      if x = returned then [var result] else []
    | _, _ => []

/-- What a call does to a fact on the way past its callees. -/
def callToReturnFlow (s : Stmt) (d : LocalFact) : List LocalFact :=
  match s, d with
  | .call _ _ (some result), var x => if x = result then [] else [d]
  | _, _ => [d]

/-- The flow along an edge. -/
def flow (P : Program) : FlowEdge → LocalFact → Except Fault (List LocalFact)
  | .normal node _, d => do return normalFlow (← P.stmt node) d
  | .call site callee _, d =>
    do return callFlow (← P.stmt site) (P.params callee) d
  | .ret site _ exit _, d =>
    do return returnFlow (← P.stmt site) (← P.stmt exit) d
  | .callToReturn site _, d => do return callToReturnFlow (← P.stmt site) d

/-- Whether a statement leaves every fact alone. -/
def isIdentity : Stmt → Bool
  | .nop | .use _ => true
  | _ => false

/-- The uninitialized variables of a program, from the given
procedures. -/
def problem (P : Program) (entries : List Proc) :
    ReachabilityProblem LocalFact where
  zero := zero
  entries := entries
  flow := flow P
  isIdentityAt n := (P.stmt n).map isIdentity

end Tabulation.Uninitialized
