/-
Solving a problem: check the lattice, plant the seeds, find all path
edges, compute the values, and hand out what was found.

A run that stopped early computes no values. Without values, every
reached fact is reported with the top.
-/
import Tabulation.Problem.Reachability
import Tabulation.Solver.Results
import Tabulation.Solver.Values

namespace Tabulation

namespace Solver

variable {D W L : Type} [DecidableEq D] [DecidableEq W] [DecidableEq L]
variable (S : Setup D W L)

/-- Compute the values, if they are asked for and all path edges are
known. -/
def valuePhase (fuel : Nat) (status : Status) :
    SolverM D W L (Option (Grid Node D L)) := do
  if status.isComplete && S.config.computeValues then
    match Values.compute S (← get) fuel {} with
    | .error failure _ => throw failure
    | .ok _ found =>
      modify fun s => { s with stats.valuePropagations := found.propagations }
      return some found.values
  else return none

/-- The value to report for a reached fact. -/
def reportedValue (values : Option (Grid Node D L)) (node : Node) (d : D) : L :=
  match values with
  | some values => values.getD node d S.problem.lattice.bottom
  | none => S.problem.lattice.top

/-- The counters at the end of a run. Path edges and summaries are
counted by the tables they are kept in, one by one as they come; the
counts are handed out here. -/
def finalStatistics (s : State D W L) : Statistics :=
  { s.stats with
    pathEdges := s.jumps.size
    summaryEdges := s.summaries.size
    internedFacts := s.facts.length
    elapsed := S.world.elapsed s.stats.worklistIterations }

/-- Hand out what was found. -/
def report (status : Status) (values : Option (Grid Node D L)) :
    SolverM D W L (Results D L) := do
  let s ← get
  let rows ← ask
    (Results.assembleRows (S.view s.graph) (reportedValue S values) s.jumps)
  return {
    rows
    zero := S.problem.zero
    bottom := S.problem.lattice.bottom
    status
    statistics := finalStatistics S s
    neighbors := Results.resolveLinks s.facts s.links.neighbors
    contexts := Results.resolveLinks s.facts s.links.contexts
    exploded := s.exploded.reverse }

/-- A whole run. -/
def run (fuel : Nat) : SolverM D W L (Results D L) := do
  validate S
  plantAll S
  let status ← tabulate S fuel
  let values ← valuePhase S fuel status
  report S status values

/-- Solve a problem on a flow graph. The graph comes back with the call
targets that were added, also when there are no results. -/
def solve (fuel : Nat) (graph : FlowGraph) :
    Except (Failure D W L) (Results D L) × FlowGraph :=
  match run S fuel (State.start S graph) with
  | .ok results s => (.ok results, s.graph)
  | .error failure s => (.error failure, s.graph)

end Solver

end Tabulation
