/-
The first phase: finding all path edges.

A pending path edge is taken from the worklist and followed by
the class of its node: a call is entered and passed by, an exit is returned
from, and any other node flows to its successors. Procedures are
summarized by what their exits are reached with; a summary is used at
every call that entered with the same fact, whichever of call and
summary came first. New path edges and larger jump functions are
queued.

When nothing is pending, call sites whose targets grew since they were
last visited are queued again. When that queues nothing either, all
path edges are found.

The loop runs on fuel, one unit a turn, since a problem with endless
chains has no end.
-/
import Tabulation.Solver.State

namespace Tabulation

/-- A computation on the tables of a run. The tables outlive a failure. -/
abbrev SolverM (D W L : Type) := EStateM (Failure D W L) (State D W L)

namespace Solver

variable {D W L : Type} [DecidableEq D] [DecidableEq W] [DecidableEq L]
variable (S : Setup D W L)

-- ============================================================== asking

/-- Fail with a verdict. -/
def reject {α : Type} (error : SolveError D W L) : SolverM D W L α :=
  throw (.rejected error)

/-- An answer of the problem, or its fault. -/
def ask {α : Type} : Except Fault α → SolverM D W L α
  | .ok a => pure a
  | .error fault => throw (.fault fault)

/-- An answer of the graph about a node, which some procedure has to
own. -/
def askOf {α : Type} (node : Node) : Option α → SolverM D W L α
  | some a => pure a
  | none => throw (.fault (.unknownNode node))

/-- The graph as the solver sees it now. -/
def look : SolverM D W L Icfg := do
  return S.view (← get).graph

/-- The jump function of a path edge. -/
def jumpFunction (e : PathEdge D) : SolverM D W L W := do
  match (← get).jump? e with
  | some w => pure w
  | none => reject (.inconsistent (.jumpFunction e.node))

-- ================================================================== flow

/-- Take over the answer of a flow function: number its facts, record
its edges, and return what it is taken to yield. -/
def accept (edge : FlowEdge) (d : D) (answer : List (D × W)) :
    SolverM D W L (List (D × W)) := do
  let targets := S.effective d answer
  modify fun s => s.intern (answer.map Prod.fst)
  if S.config.recordEdges then
    modify fun s =>
      { s with
        exploded :=
          (targets.map fun (e, _) => ExplodedEdge.along edge d e).reverse ++
          s.exploded }
  return targets

/-- Evaluate a flow function: serve its requests, then take over its
answer. -/
def evaluate (edge : FlowEdge) (d : D) (answer : Except Fault (List (D × W))) :
    SolverM D W L (List (D × W)) := do
  modify fun s =>
    (S.problem.requests s.evaluations edge d).foldl State.serve
      { s with evaluations := s.evaluations + 1 }
  accept S edge d (← ask answer)

/-- The flow from a node to a successor. -/
def normalFlow (node succ : Node) (d : D) : SolverM D W L (List (D × W)) := do
  let edge := FlowEdge.normal node succ
  if ← ask (S.problem.isIdentityAt node) then
    accept S edge d [(d, S.identity)]
  else
    evaluate S edge d (S.problem.flow edge d)

/-- The flow from a call site into a callee, computed once. -/
def callFlow (site : Node) (callee : Proc) (start : Node) (callFact : D) :
    SolverM D W L (List (D × W)) := do
  match (← get).callFlows.get? site (callee, callFact) with
  | some targets => pure targets
  | none =>
    let edge := FlowEdge.call site callee start
    let targets ← evaluate S edge callFact (S.problem.flow edge callFact)
    modify fun s =>
      { s with callFlows := s.callFlows.insert site (callee, callFact) targets }
    return targets

/-- The flow from an exit back to a return site. -/
def returnFlow (site : Node) (callee : Proc) (exit returnSite : Node)
    (exitFact callFact : D) : SolverM D W L (List (D × W)) :=
  let edge := FlowEdge.ret site callee exit returnSite
  evaluate S edge exitFact (S.problem.returnFlow edge exitFact callFact)

/-- The edge function by which a call entered a callee with a fact. -/
def entryFunction (site : Node) (callee : Proc) (callFact entry : D) :
    SolverM D W L W := do
  let targets := (← get).callFlows.getD site (callee, callFact) []
  match targets.find? fun (d, _) => decide (d = entry) with
  | some (_, w) => pure w
  | none => reject (.inconsistent (.callFlow site callee))

-- =========================================================== propagation

/-- Store a jump function and queue its path edge. -/
def enqueue (e : PathEdge D) (w : W) : SolverM D W L Unit :=
  modify fun s => { s.setJump e w with worklist := s.worklist ++ [e] }

/-- Note that `origin` was merged into a fact. -/
def noteMerge (d : D) (origin : Option D) : SolverM D W L Unit := do
  match origin with
  | some o =>
    if S.config.trackLinks then
      modify fun s =>
        { s with links := s.links.addNeighbor (s.number d) (s.number o) }
  | none => pure ()

/-- Let a path edge be reached by an edge function, from the fact
`origin` just before. A new path edge is stored, a known one is joined
to; it is queued if its jump function is new. -/
def propagate (e : PathEdge D) (w : W) (origin : Option D) :
    SolverM D W L Unit := do
  match (← get).jump? e with
  | none => enqueue e w
  | some previous =>
    let joined := S.problem.functions.join previous w
    if S.config.checkMonotonicity && !S.isUpperBound joined previous w then
      reject (.functionRegressed e.node e.target previous w joined)
    else if joined = previous then
      noteMerge S e.target origin
    else
      modify fun s =>
        { s with stats.jumpFunctionUpdates := s.stats.jumpFunctionUpdates + 1 }
      enqueue e joined

/-- Let every target of a flow be reached at a node. -/
def propagateAll (source : D) (node : Node) (through : W) (origin : D)
    (targets : List (D × W)) : SolverM D W L Unit :=
  targets.forM fun (d, w) =>
    propagate S { source, node, target := d } (S.comp through w) (some origin)

-- ================================================= following a path edge

/-- Follow a path edge to the successors of its node. -/
def processNormal (e : PathEdge D) : SolverM D W L Unit := do
  let jump ← jumpFunction e
  let graph ← look S
  (graph.successors e.node).forM fun succ => do
    let targets ← normalFlow S e.node succ e.target
    propagateAll S e.source succ jump e.target targets

/-- Note that a call entered a procedure. -/
def noteEntry (i : Incoming D) : SolverM D W L Unit := do
  if S.config.trackLinks then
    modify fun s =>
      { s with
        links := s.links.addContext (s.number i.entry) (s.number i.callFact) }
  if i ∉ (← get).incoming then
    modify fun s =>
      { s with
        incoming := s.incoming ++ [i]
        stats.incomingEdges := s.stats.incomingEdges + 1 }

/-- Apply the summaries a callee already has for an entry. `through`
leads from the caller's start into the callee. -/
def applySummaries (e : PathEdge D) (callee : Proc) (returnSite : Node)
    (entry : D) (through : W) : SolverM D W L Unit := do
  let summaries := (← get).summariesOf callee entry
  if !summaries.isEmpty then
    modify fun s => { s with stats.summaryReuses := s.stats.summaryReuses + 1 }
  summaries.forM fun (summary, w) => do
    let targets ← returnFlow S e.node callee summary.exit returnSite
      summary.exitFact e.target
    propagateAll S e.source returnSite (S.comp through w) e.target targets

/-- Enter a callee with a fact, and return from it as far as is known. -/
def enter (e : PathEdge D) (jump : W) (callee : Proc) (start : Node)
    (returnSite? : Option Node) : D × W → SolverM D W L Unit
  | (entry, w) => do
    propagate S { source := entry, node := start, target := entry }
      S.identity none
    noteEntry S { start, entry, site := e.node, callFact := e.target }
    match returnSite? with
    | some returnSite =>
      applySummaries S e callee returnSite entry (S.comp jump w)
    | none => pure ()

/-- Visit one callee of a call. -/
def visitCallee (e : PathEdge D) (jump : W) (returnSite? : Option Node)
    (fresh : List Proc) (callee : Proc) : SolverM D W L Unit := do
  let graph ← look S
  match graph.start? callee with
  | none =>
    if callee ∈ fresh then
      modify fun s =>
        { s with stats.bodilessCallees := s.stats.bodilessCallees + 1 }
  | some start =>
    let entries ← callFlow S e.node callee start e.target
    entries.forM (enter S e jump callee start returnSite?)

/-- Follow a path edge into the callees of a call, and past them. -/
def processCall (e : PathEdge D) : SolverM D W L Unit := do
  let jump ← jumpFunction e
  let graph ← look S
  let returnSite? := graph.returnSite? e.node
  let callees := graph.callees e.node
  let met := (← get).known
  let fresh := callees.filter fun callee => decide ((e.node, callee) ∉ met)
  modify fun s =>
    { s with
      known := Listing.addAll s.known (callees.map fun p => (e.node, p)) }
  callees.forM (visitCallee S e jump returnSite? fresh)
  match returnSite? with
  | some returnSite =>
    let edge := FlowEdge.callToReturn e.node returnSite
    let targets ← evaluate S edge e.target (S.problem.flow edge e.target)
    propagateAll S e.source returnSite jump e.target targets
  | none => pure ()

/-- Return from an exit to one caller. -/
def returnTo (e : PathEdge D) (summary : W) (callee : Proc) (i : Incoming D) :
    SolverM D W L Unit := do
  let graph ← look S
  match graph.returnSite? i.site with
  | none => pure ()
  | some returnSite =>
    let entered ← entryFunction i.site callee i.callFact i.entry
    let targets ← returnFlow S i.site callee e.node returnSite
      e.target i.callFact
    let callers := (← get).sourcesOf i.site i.callFact
    targets.forM fun (d, w) =>
      callers.forM fun (source, jump) =>
        propagate S { source, node := returnSite, target := d }
          (S.comp jump (S.comp (S.comp entered summary) w)) (some i.callFact)

/-- Follow a path edge from an exit back to everybody who entered. -/
def processExit (e : PathEdge D) : SolverM D W L Unit := do
  let summary ← jumpFunction e
  let graph ← look S
  let callee ← askOf e.node (graph.procOf? e.node)
  match graph.start? callee with
  | none => reject (.inconsistent (.startOf e.node callee))
  | some start =>
    let key : SummaryEdge D :=
      { proc := callee, entry := e.source, exit := e.node,
        exitFact := e.target }
    modify fun s => { s with summaries := s.summaries.insert key summary }
    ((← get).callersOf start e.source).forM (returnTo S e summary callee)

/-- Follow a path edge by the class of its node: a call first, then an
exit. -/
def process (e : PathEdge D) : SolverM D W L Unit := do
  let graph ← look S
  if graph.isCall e.node then processCall S e
  else if ← askOf e.node (graph.isExit? e.node) then processExit S e
  else processNormal S e

-- ============================================================== the loop

/-- Take the next pending path edge. -/
def next? : SolverM D W L (Option (PathEdge D)) := do
  let s ← get
  match S.config.order with
  | .fifo =>
    match s.worklist with
    | [] => pure none
    | e :: rest => do
      set { s with worklist := rest }
      return some e
  | .lifo =>
    match s.worklist.getLast? with
    | none => pure none
    | some e => do
      set { s with worklist := s.worklist.dropLast }
      return some e

/-- Why to stop now, if there is a reason. -/
def stopReason? (s : State D W L) : Option StopReason :=
  let count := s.stats.worklistIterations
  if s.cancelled || S.world.cancelled count then some .cancelled
  else if S.config.maxIterations.any (· ≤ count) then some .iterationLimit
  else if S.config.timeout.any
    (·.nanoseconds ≤ (S.world.elapsed count).nanoseconds) then
    some .timeout
  else none

/-- Queue the path edges of call sites whose targets grew since they
were last visited, and say whether there are any. -/
def rescan : SolverM D W L Bool := do
  let s ← get
  let graph := S.view s.graph
  if graph.revision = s.seenRevision then return false
  let sites := Listing.sortOn (fun n => (n.id, 0))
    (s.jumps.rows.keys.filter graph.isCall)
  let grown := sites.filter fun site =>
    (graph.callees site).any fun callee => decide ((site, callee) ∉ s.known)
  let pending := grown.flatMap s.edgesAt
  set { s with
    seenRevision := graph.revision
    worklist := s.worklist ++ pending
    stats.calleeRescans := s.stats.calleeRescans + grown.length }
  return !pending.isEmpty

/-- One turn of the loop: follow a pending path edge, or look for more
when there is none. The answer is the status once the loop is over. -/
def turn : SolverM D W L (Option Status) := do
  match ← next? S with
  | some e =>
    match stopReason? S (← get) with
    | some reason =>
      modify fun s => { s with worklist := [] }
      return some (.incomplete reason)
    | none =>
      modify fun s =>
        { s with stats.worklistIterations := s.stats.worklistIterations + 1 }
      process S e
      return none
  | none =>
    if ← rescan S then return none
    else return some .complete

/-- Take turns until the loop is over. -/
def tabulate : Nat → SolverM D W L Status
  | 0 => throw .outOfFuel
  | fuel + 1 => do
    match ← turn S with
    | some status => return status
    | none => tabulate fuel

-- ============================================================= beginning

/-- Check the laws of the lattice on the samples. -/
def validate : SolverM D W L Unit :=
  match S.problem.lattice.violation? S.samples with
  | some violation => reject (.malformedLattice violation)
  | none => pure ()

/-- Start from a fact at a node. -/
def plant (seed : Seed D L) : SolverM D W L Unit := do
  modify fun s => { s.intern [seed.fact] with seeds := s.seeds ++ [seed] }
  propagate S { source := seed.fact, node := seed.node, target := seed.fact }
    S.identity none

/-- Start from zero at the start of an entry. -/
def plantEntry (proc : Proc) : SolverM D W L Unit := do
  let graph ← look S
  match graph.start? proc with
  | some start =>
    plant S
      { node := start, fact := S.problem.zero, value := S.problem.initial }
  | none => reject (.missingStart proc)

/-- Start from a further seed, which has to be at a start. -/
def plantSeed (seed : Seed D L) : SolverM D W L Unit := do
  let graph ← look S
  if ← askOf seed.node (graph.isStart? seed.node) then plant S seed
  else reject (.seedNotAtStart seed.node seed.fact)

/-- Start from all entries and seeds. -/
def plantAll : SolverM D W L Unit := do
  if S.problem.entries.isEmpty && S.problem.seeds.isEmpty then reject .noSeeds
  S.problem.entries.forM (plantEntry S)
  S.problem.seeds.forM (plantSeed S)
  let graph ← look S
  modify fun s => { s with seenRevision := graph.revision }

end Solver

end Tabulation
