/-
The counters of a run, and how they are written.
-/
import Tabulation.Duration

namespace Tabulation

/-- The counters of one run. -/
structure Statistics where
  pathEdges : Nat := 0
  /-- Path edges whose jump function was replaced by a larger one. -/
  jumpFunctionUpdates : Nat := 0
  summaryEdges : Nat := 0
  /-- Visits of a call that found a finished summary. -/
  summaryReuses : Nat := 0
  incomingEdges : Nat := 0
  worklistIterations : Nat := 0
  valuePropagations : Nat := 0
  /-- Call sites queued again because their targets grew. -/
  calleeRescans : Nat := 0
  /-- Pairs of a call site and a callee without a body. -/
  bodilessCallees : Nat := 0
  internedFacts : Nat := 0
  elapsed : Duration := {}
deriving DecidableEq, Repr, Inhabited

namespace Statistics

/-- The counters, one a line, the numbers in one column. -/
def render (s : Statistics) : String :=
  "\n".intercalate [
    "path edges:            " ++ toString s.pathEdges,
    "jump function updates: " ++ toString s.jumpFunctionUpdates,
    "summary edges:         " ++ toString s.summaryEdges,
    "summary reuses:        " ++ toString s.summaryReuses,
    "incoming edges:        " ++ toString s.incomingEdges,
    "worklist iterations:   " ++ toString s.worklistIterations,
    "value propagations:    " ++ toString s.valuePropagations,
    "callee rescans:        " ++ toString s.calleeRescans,
    "bodiless callees:      " ++ toString s.bodilessCallees,
    "interned facts:        " ++ toString s.internedFacts,
    "elapsed:               " ++ s.elapsed.render]

end Statistics

end Tabulation
