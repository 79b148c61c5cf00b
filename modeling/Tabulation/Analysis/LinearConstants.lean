/-
Linear constant propagation: which variables hold a constant, and which
one.

A fact is a variable that has been assigned. Constants are born from
zero, linear assignments carry them on, and the sum of two variables is
given up. Calls bind arguments to parameters and returned variables to
results.
-/
import Tabulation.Analysis.LocalFact
import Tabulation.EdgeFunction.Linear
import Tabulation.Problem.Basic
import Tabulation.Problem.FlowFunction
import Tabulation.Program.Basic

namespace Tabulation.LinearConstants

open LocalFact

/-- A fact that passes unchanged. -/
def pass (d : LocalFact) : List (LocalFact × LinearEdge) := [(d, .identity)]

/-- What `dst = f(src)` does to the fact of the variable `x`. -/
def assign (dst src : Var) (f : LinearEdge) (x : Var) :
    List (LocalFact × LinearEdge) :=
  (if x ≠ dst then pass (var x) else []) ++
    (if x = src then [(var dst, f)] else [])

/-- What a statement does to a fact on the way to a successor. -/
def normalFlow : Stmt → LocalFact → List (LocalFact × LinearEdge)
  | .const dst c, zero => pass zero ++ [(var dst, .const c)]
  | .add dst _ _, zero => pass zero ++ [(var dst, .allTop)]
  | _, zero => pass zero
  | .copy dst src, var x => assign dst src .identity x
  | .linear dst src a b, var x => assign dst src (.ofCoefficients a b) x
  | .const dst _, var x => if x = dst then [] else pass (var x)
  | .add dst _ _, var x => if x = dst then [] else pass (var x)
  | _, d => pass d

/-- What a call does to a fact on the way into a callee. -/
def callFlow (s : Stmt) (params : List Var) :
    LocalFact → List (LocalFact × LinearEdge)
  | zero => pass zero
  | d =>
    match s with
    | .call _ args _ =>
      FlowFunction.withWeight
        (FlowFunction.transfer d (bindings args params)) .identity
    | _ => []

/-- What a return does to a fact on the way back to a caller. -/
def returnFlow (callStmt exitStmt : Stmt) :
    LocalFact → List (LocalFact × LinearEdge)
  | zero => pass zero
  | var x =>
    match callStmt, exitStmt with
    | .call _ _ (some result), .ret (some returned) =>
      if x = returned then pass (var result) else []
    | _, _ => []

/-- What a call does to a fact on the way past its callees. -/
def callToReturnFlow (s : Stmt) (d : LocalFact) :
    List (LocalFact × LinearEdge) :=
  match s, d with
  | .call _ _ (some result), var x => if x = result then [] else pass d
  | _, _ => pass d

/-- The flow along an edge. -/
def flow (P : Program) :
    FlowEdge → LocalFact → Except Fault (List (LocalFact × LinearEdge))
  | .normal node _, d => do return normalFlow (← P.stmt node) d
  | .call site callee _, d =>
    do return callFlow (← P.stmt site) (P.params callee) d
  | .ret site _ exit _, d =>
    do return returnFlow (← P.stmt site) (← P.stmt exit) d
  | .callToReturn site _, d => do return callToReturnFlow (← P.stmt site) d

/-- Whether a statement leaves every fact alone. -/
def isIdentity : Stmt → Bool
  | .nop | .use _ | .decl _ | .ret _ => true
  | _ => false

/-- The sample constants: zero, one, and a negative one. -/
def samples : List ConstValue :=
  [.const Word.zero, .const Word.one, .const ⟨-7, by decide, by decide⟩]

/-- Linear constant propagation on a program, from the given
procedures. -/
def problem (P : Program) (entries : List Proc) :
    Problem LocalFact LinearEdge ConstValue where
  lattice := ConstValue.lattice
  functions := LinearEdge.functions
  zero := zero
  entries := entries
  initial := .bottom
  samples := samples
  flow := flow P
  isIdentityAt n := (P.stmt n).map isIdentity

end Tabulation.LinearConstants
