/-
Undefined uses: statements that read a variable which may have no value
there.
-/
import Tabulation.Analysis.Uninitialized
import Tabulation.Solver.Results

namespace Tabulation.Uninitialized

/-- The variables among those a statement reads that may have no value
before it, in order. Arguments of calls count only if asked for. -/
def undefinedReads {L : Type} (results : Results LocalFact L)
    (checkArguments : Bool) (node : Node) (s : Stmt) : List Var :=
  if s.isCall && !checkArguments then []
  else
    Listing.sortBy (fun x y => decide (x ≤ y)) <| Listing.distinct <|
      s.reads.filter fun x =>
        decide (results.holdsFact node (.var x) = .reachable)

/-- The reached statements with undefined reads, in ascending order. -/
def undefinedUses {L : Type} (P : Program) (results : Results LocalFact L)
    (checkArguments : Bool) : Except Fault (List (Node × List Var)) := do
  let uses ← results.reachedNodes.mapM fun node => do
    let s ← P.stmt node
    return (node, undefinedReads results checkArguments node s)
  return uses.filter fun (_, vars) => !vars.isEmpty

end Tabulation.Uninitialized
