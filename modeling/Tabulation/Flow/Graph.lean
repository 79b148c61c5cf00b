/-
The flow graph: a registry of procedures, nodes, edges and calls.

The registry only grows. Procedures, nodes and edges are laid down
first; call targets may be added at any time by `resolveCall`, also
while a solver is looking at the graph, and each new pair of call site
and target moves `revision` on by one.

Successors and predecessors, and callees and callers, are kept as two
indexes of one relation each, so that both directions are answered
without a search.

Changes are made in place and may be refused (`GraphM`): a refusal
hands out the graph as it stands at that moment, and that it is the
graph from before is a theorem, not a matter of types. A `Mutation` is
one change as a value, and `mutate` carries it out.
-/
import Tabulation.Flow.Icfg
import Tabulation.Listing
import Tabulation.Table

namespace Tabulation

/-- What is registered for one procedure. -/
structure Routine where
  start : Option Node := none
  exits : List Node := []
  nodes : List Node := []
  calls : List Node := []
deriving Repr, Inhabited

/-- A registry of procedures, nodes, edges and calls. -/
structure FlowGraph where
  routines : Table Proc Routine := .empty
  owner : Table Node Proc := .empty
  successorIndex : Table Node (List Node) := .empty
  predecessorIndex : Table Node (List Node) := .empty
  returnSites : Table Node Node := .empty
  calleeIndex : Table Node (List Proc) := .empty
  callerIndex : Table Proc (List Node) := .empty
  revision : Nat := 0
deriving Repr, Inhabited

namespace FlowGraph

-- ================================================================ questions

/-- The procedures, in the order of their registration. -/
def procs (g : FlowGraph) : List Proc := g.routines.keys

/-- What is registered for a procedure; nothing for an unknown one. -/
def routine (g : FlowGraph) (p : Proc) : Routine := g.routines.getD p {}

/-- The procedure a node was last registered under. -/
def procOf? (g : FlowGraph) (n : Node) : Option Proc := g.owner.get? n

/-- The successors of a node, in the order in which the edges came. -/
def successors (g : FlowGraph) (n : Node) : List Node :=
  g.successorIndex.getD n []

/-- The predecessors of a node, in the order in which the edges came. -/
def predecessors (g : FlowGraph) (n : Node) : List Node :=
  g.predecessorIndex.getD n []

/-- The first node of a procedure. -/
def start? (g : FlowGraph) (p : Proc) : Option Node := (g.routine p).start

/-- The exits of a procedure. -/
def exits (g : FlowGraph) (p : Proc) : List Node := (g.routine p).exits

/-- The nodes of a procedure, in the order of their registration. -/
def nodes (g : FlowGraph) (p : Proc) : List Node := (g.routine p).nodes

/-- The call sites of a procedure. -/
def callsWithin (g : FlowGraph) (p : Proc) : List Node := (g.routine p).calls

/-- Whether a node is an exit of the procedure that owns it. -/
def isExit (g : FlowGraph) (n : Node) : Bool :=
  match g.procOf? n with
  | some p => decide (n ∈ g.exits p)
  | none => false

/-- Whether a node is a call site. -/
def isCall (g : FlowGraph) (n : Node) : Bool := g.returnSites.contains n

/-- The known targets of a call site. -/
def callees (g : FlowGraph) (c : Node) : List Proc := g.calleeIndex.getD c []

/-- The call sites known to call a procedure. -/
def callers (g : FlowGraph) (p : Proc) : List Node := g.callerIndex.getD p []

/-- The node a call returns to. -/
def returnSite? (g : FlowGraph) (c : Node) : Option Node := g.returnSites.get? c

/-- The graph as a solver sees it now. -/
def icfg (g : FlowGraph) : Icfg where
  procOf? := g.procOf?
  successors := g.successors
  start? := g.start?
  isExit? := fun n => some (g.isExit n)
  isCall := g.isCall
  callees := g.callees
  callsWithin := g.callsWithin
  returnSite? := g.returnSite?
  revision := g.revision

/-- Whether a node is the start of the procedure that owns it; `none`
if no procedure does. -/
def isStart? (g : FlowGraph) (n : Node) : Option Bool := g.icfg.isStart? n

/-- The graph as a narrower observer sees it: the named calls return
nowhere, the named procedures have no body, growth goes unnoticed, and
to ask whether an unowned node is an exit is to ask in vain. -/
def restrictedIcfg (noReturn : List Node) (noStart : List Proc)
    (g : FlowGraph) : Icfg where
  procOf? := g.procOf?
  successors := g.successors
  start? := fun p => if p ∈ noStart then none else g.start? p
  isExit? := fun n => (g.procOf? n).map fun p => decide (n ∈ g.exits p)
  isCall := g.isCall
  callees := g.callees
  callsWithin := g.callsWithin
  returnSite? := fun c => if c ∈ noReturn then none else g.returnSite? c
  revision := 0

-- ================================================================== growth

/-- Change what is registered for a procedure. -/
def updateRoutine (g : FlowGraph) (p : Proc) (f : Routine → Routine) :
    FlowGraph :=
  { g with routines := g.routines.update p {} f }

/-- Register a procedure; one that is known stays as it is. -/
def addProc (g : FlowGraph) (p : Proc) : FlowGraph :=
  if g.routines.contains p then g else g.updateRoutine p id

/-- Register a node under a procedure. The first node of a procedure is
its start. A node that is registered again moves to the later
procedure, and stays listed in the earlier one. -/
def addNode (g : FlowGraph) (p : Proc) (n : Node) : FlowGraph :=
  let g := g.addProc p
  { g with owner := g.owner.insert n p }.updateRoutine p fun r =>
    { r with nodes := r.nodes ++ [n], start := some (r.start.getD n) }

/-- Add an edge, once. -/
def addEdge (g : FlowGraph) (a b : Node) : FlowGraph :=
  if b ∈ g.successors a then g
  else
    { g with
      successorIndex := g.successorIndex.update a [] (· ++ [b])
      predecessorIndex := g.predecessorIndex.update b [] (· ++ [a]) }

/-- Add a target to a call site, and say whether it was new. -/
def resolveCall (g : FlowGraph) (c : Node) (p : Proc) : Bool × FlowGraph :=
  if p ∈ g.callees c then (false, g)
  else
    (true,
      { g with
        calleeIndex := g.calleeIndex.update c [] (· ++ [p])
        callerIndex := g.callerIndex.update p [] (· ++ [c])
        revision := g.revision + 1 })

/-- The graph with a further target at a call site. -/
def resolve (g : FlowGraph) (c : Node) (p : Proc) : FlowGraph :=
  (g.resolveCall c p).2

-- ==================================================== changes in place

/-- A change in place: it reads and writes a graph, and may be refused.
The graph that a refusal leaves is the one written so far. -/
abbrev GraphM := EStateM Fault FlowGraph

/-- The procedure that owns a node, for a change that needs one. -/
def ownerOf (n : Node) : GraphM Proc := do
  match (← get).procOf? n with
  | some p => return p
  | none => throw (.unknownNode n)

/-- Mark a node as an exit of the procedure that owns it. -/
def addExit (n : Node) : GraphM Unit := do
  let p ← ownerOf n
  modify fun g => g.updateRoutine p fun r =>
    { r with exits := Listing.add r.exits n }

/-- Make a node a call site that returns to the given node. The targets
may be empty for a call that is resolved later. -/
def addCall (c returnSite : Node) (targets : List Proc) : GraphM Unit := do
  let p ← ownerOf c
  modify fun g => g.updateRoutine p fun r => { r with calls := r.calls ++ [c] }
  modify fun g => { g with returnSites := g.returnSites.insert c returnSite }
  modify fun g => g.addEdge c returnSite
  modify fun g => targets.foldl (fun g p => g.resolve c p) g

-- ======================================================= changes as values

/-- One change of a flow graph. -/
inductive Mutation where
  | addProc (p : Proc)
  | addNode (p : Proc) (n : Node)
  | addExit (n : Node)
  | addEdge (a b : Node)
  | addCall (c returnSite : Node) (targets : List Proc)
  | resolveCall (c : Node) (p : Proc)
deriving DecidableEq, Repr

/-- Carry out a change. The answer of a resolution says whether the
target was new; the other changes have none. -/
def mutate : Mutation → GraphM (Option Bool)
  | .addProc p => do
    modify fun g => g.addProc p
    return none
  | .addNode p n => do
    modify fun g => g.addNode p n
    return none
  | .addExit n => do
    addExit n
    return none
  | .addEdge a b => do
    modify fun g => g.addEdge a b
    return none
  | .addCall c r targets => do
    addCall c r targets
    return none
  | .resolveCall c p => do
    let new ← modifyGet fun g => g.resolveCall c p
    return some new

/-- The graph that a change leaves, carried out or refused. -/
def apply (g : FlowGraph) (m : Mutation) : FlowGraph :=
  match mutate m g with
  | .ok _ g' => g'
  | .error _ g' => g'

/-- The graph that changes leave, one after the other. -/
def mutateAll (g : FlowGraph) (steps : List Mutation) : FlowGraph :=
  steps.foldl apply g

end FlowGraph

end Tabulation
