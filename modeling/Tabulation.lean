import Tabulation.Analysis.LinearConstants
import Tabulation.Analysis.LocalFact
import Tabulation.Analysis.UndefinedUse
import Tabulation.Analysis.Uninitialized
import Tabulation.Command.Demo
import Tabulation.Command.FileTree
import Tabulation.Command.Options
import Tabulation.Command.Run
import Tabulation.Duration
import Tabulation.EdgeFunction.Basic
import Tabulation.EdgeFunction.Binary
import Tabulation.EdgeFunction.Exact
import Tabulation.EdgeFunction.Laws
import Tabulation.EdgeFunction.Linear
import Tabulation.Flow.Graph
import Tabulation.Flow.Icfg
import Tabulation.Flow.Point
import Tabulation.Flow.WellFormed
import Tabulation.Grid
import Tabulation.Lattice.Basic
import Tabulation.Lattice.Binary
import Tabulation.Lattice.Constant
import Tabulation.Lattice.Finite
import Tabulation.Lattice.Laws
import Tabulation.Listing
import Tabulation.Main
import Tabulation.Problem.Basic
import Tabulation.Problem.FlowFunction
import Tabulation.Problem.Reachability
import Tabulation.Problem.Rules
import Tabulation.Problem.Variation
import Tabulation.Program.Basic
import Tabulation.Program.Draft
import Tabulation.Program.Execution
import Tabulation.Program.Missing
import Tabulation.Program.Scope
import Tabulation.Program.Stmt
import Tabulation.Proofs.BuiltGraphs
import Tabulation.Proofs.Consistency
import Tabulation.Proofs.ConstantOrigins
import Tabulation.Proofs.ConstantSoundness
import Tabulation.Proofs.Counters
import Tabulation.Proofs.Coverage
import Tabulation.Proofs.Deduction
import Tabulation.Proofs.Determinacy
import Tabulation.Proofs.EdgeFunction.Exact
import Tabulation.Proofs.EdgeFunction.Rounding
import Tabulation.Proofs.EffectiveFlow
import Tabulation.Proofs.Ensures
import Tabulation.Proofs.ExplodedEdges
import Tabulation.Proofs.Flow.Indexes
import Tabulation.Proofs.Flow.Listings
import Tabulation.Proofs.Flow.Registry
import Tabulation.Proofs.FollowedEdges
import Tabulation.Proofs.Growth
import Tabulation.Proofs.GuardedJoins
import Tabulation.Proofs.IterationLimit
import Tabulation.Proofs.JoinOverPaths
import Tabulation.Proofs.LateCallees
import Tabulation.Proofs.LawCheck
import Tabulation.Proofs.LinearProblems
import Tabulation.Proofs.Lockstep
import Tabulation.Proofs.ObservationFlags
import Tabulation.Proofs.OrderIndependence
import Tabulation.Proofs.OrderedAlgebra
import Tabulation.Proofs.Paths
import Tabulation.Proofs.Program.Analysis
import Tabulation.Proofs.Program.Edges
import Tabulation.Proofs.Program.Layout
import Tabulation.Proofs.Program.Text
import Tabulation.Proofs.Reachability
import Tabulation.Proofs.RepeatedTargets
import Tabulation.Proofs.SameFlows
import Tabulation.Proofs.Solver.Closure
import Tabulation.Proofs.Solver.Flows
import Tabulation.Proofs.Solver.Following
import Tabulation.Proofs.Solver.Fuel
import Tabulation.Proofs.Solver.Halting
import Tabulation.Proofs.Solver.Landing
import Tabulation.Proofs.Solver.Ledger
import Tabulation.Proofs.Solver.Loop
import Tabulation.Proofs.Solver.Moves
import Tabulation.Proofs.Solver.Outcome
import Tabulation.Proofs.Solver.Settings
import Tabulation.Proofs.Solver.Settling
import Tabulation.Proofs.Solver.Tables
import Tabulation.Proofs.Solver.Turns
import Tabulation.Proofs.Solver.Unweighted
import Tabulation.Proofs.Solver.Values
import Tabulation.Proofs.Solver.Walk
import Tabulation.Proofs.SummaryOrder
import Tabulation.Proofs.Termination
import Tabulation.Proofs.UndefinedUses
import Tabulation.Proofs.Valuation
import Tabulation.Proofs.ValuedFacts
import Tabulation.Proofs.Verdicts
import Tabulation.Proofs.ZeroFact
import Tabulation.SlotMap
import Tabulation.Solver.Cancellation
import Tabulation.Solver.Config
import Tabulation.Solver.Failure
import Tabulation.Solver.Results
import Tabulation.Solver.Solve
import Tabulation.Solver.State
import Tabulation.Solver.Statistics
import Tabulation.Solver.Tabulate
import Tabulation.Solver.Values
import Tabulation.Supergraph
import Tabulation.Table
import Tabulation.Word
