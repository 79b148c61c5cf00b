/-
How a solver is run, and how a run ends.

The surroundings of a run are two functions of the count of worklist
iterations: how much time has passed, and whether somebody outside has
cancelled. Both are looked at once per iteration.
-/
import Tabulation.Duration

namespace Tabulation

/-- The order in which pending path edges are taken. -/
inductive WorklistOrder where
  /-- Oldest first. -/
  | fifo
  /-- Newest first. -/
  | lifo
deriving DecidableEq, Repr, Inhabited

namespace WorklistOrder

/-- The name of an order. -/
def render : WorklistOrder → String
  | fifo => "Fifo"
  | lifo => "Lifo"

end WorklistOrder

/-- The settings of a solver. -/
structure Config where
  order : WorklistOrder := .fifo
  /-- Keep zero alive along every edge, whether the problem says so or
  not. -/
  autoAddZero : Bool := true
  /-- Compute values once all path edges are known. Without them every
  reached fact is reported with the top value. -/
  computeValues : Bool := true
  /-- Record the edges of the exploded supergraph that flow functions
  yield. -/
  recordEdges : Bool := false
  /-- Record which facts were merged, and which facts callees were
  entered from. -/
  trackLinks : Bool := false
  /-- Probe every join of edge functions and values, and fail if one
  regresses. Probing is meant for development. So a build with debug
  assertions does it unless told otherwise, and the default here is the
  one of such a build; a build without them runs with `false`. -/
  checkMonotonicity : Bool := true
  maxIterations : Option Nat := none
  timeout : Option Duration := none
deriving DecidableEq, Repr, Inhabited

namespace Config

/-- The settings for plain reachability: values are not computed. -/
def reachability : Config := { computeValues := false }

/-- The written form of an optional part. -/
def renderOption {α : Type} (render : α → String) : Option α → String
  | none => "None"
  | some a => "Some(" ++ render a ++ ")"

/-- The written form of settings. -/
def render (c : Config) : String :=
  let fields := [
    ("worklist_order", c.order.render),
    ("auto_add_zero", toString c.autoAddZero),
    ("compute_values", toString c.computeValues),
    ("record_esg", toString c.recordEdges),
    ("track_neighbors", toString c.trackLinks),
    ("check_monotonicity", toString c.checkMonotonicity),
    ("max_iterations", renderOption toString c.maxIterations),
    ("timeout", renderOption Duration.render c.timeout)]
  let written := fields.map fun (name, value) => name ++ ": " ++ value
  "SolverConfig \x7b " ++ ", ".intercalate written ++ " \x7d"

end Config

/-- Why a run stopped early. -/
inductive StopReason where
  | cancelled
  | timeout
  | iterationLimit
deriving DecidableEq, Repr

namespace StopReason

/-- The name of a reason. -/
def render : StopReason → String
  | cancelled => "Cancelled"
  | timeout => "Timeout"
  | iterationLimit => "IterationLimit"

end StopReason

/-- How a run ended. What an incomplete run reports is true as far as
it goes. -/
inductive Status where
  | complete
  | incomplete (reason : StopReason)
deriving DecidableEq, Repr

namespace Status

/-- Whether all path edges were found. -/
def isComplete : Status → Bool
  | complete => true
  | incomplete _ => false

/-- The written form of a status. -/
def render : Status → String
  | complete => "Complete"
  | incomplete reason => "Incomplete(" ++ reason.render ++ ")"

end Status

/-- What goes on around a run, by the count of worklist iterations. -/
structure World where
  /-- The time that has passed. -/
  elapsed : Nat → Duration := fun _ => {}
  /-- Whether the run has been cancelled from outside. -/
  cancelled : Nat → Bool := fun _ => false

namespace World

/-- A world in which the run was cancelled before it began. -/
def cancelledFromStart : World := { cancelled := fun _ => true }

end World

end Tabulation
