/-
The tables of a run.

A path edge says that its target fact holds at a node whenever its
source fact holds at the start of the node's procedure. Its jump
function is the effect on the value. Beside the path edges stand the
tables through which procedures are summarized once and used at every
call: who entered a procedure with which fact, what its exits were
reached with, and what each call passes on.

All tables only grow, and a fact is numbered when it is first seen.
-/
import Tabulation.Flow.Graph
import Tabulation.Grid
import Tabulation.Problem.Basic
import Tabulation.SlotMap
import Tabulation.Solver.Config
import Tabulation.Solver.Failure
import Tabulation.Solver.Statistics

namespace Tabulation

/-- The fact `target` holds at `node` if `source` holds at the start of
the procedure of `node`. -/
structure PathEdge (D : Type) where
  source : D
  node : Node
  target : D
deriving DecidableEq, Repr

/-- A procedure starting at `start` was entered with `entry` from the
call at `site`, where `callFact` held. -/
structure Incoming (D : Type) where
  start : Node
  entry : D
  site : Node
  callFact : D
deriving DecidableEq, Repr

/-- A procedure that was entered with `entry` reaches its exit with
`exitFact`. -/
structure SummaryEdge (D : Type) where
  proc : Proc
  entry : D
  exit : Node
  exitFact : D
deriving DecidableEq, Repr

/-- An edge of the exploded supergraph. -/
structure ExplodedEdge (D : Type) where
  kind : FlowKind
  source : Node
  sourceFact : D
  target : Node
  targetFact : D
deriving DecidableEq, Repr

namespace ExplodedEdge

variable {D : Type}

/-- The exploded edge that takes one fact to another along a flow edge. -/
def along (edge : FlowEdge) (d e : D) : ExplodedEdge D where
  kind := edge.kind
  source := edge.source
  sourceFact := d
  target := edge.target
  targetFact := e

/-- The written form of an exploded edge. -/
def render [ToString D] (e : ExplodedEdge D) : String :=
  let name := match e.kind with
    | .normal => "Normal"
    | .call => "Call"
    | .ret => "Return"
    | .callToReturn => "CallToReturn"
  s!"{name}: <{e.source}, {e.sourceFact}> -> <{e.target}, {e.targetFact}>"

end ExplodedEdge

/-- Links between facts, by their numbers. -/
structure Links where
  /-- The facts that were merged into a fact. -/
  neighbors : SlotMap (List Nat) := {}
  /-- The facts at call sites that a fact at a start was bound from. -/
  contexts : SlotMap (List Nat) := {}
deriving Repr, Inhabited

namespace Links

/-- Note that a fact was merged into another one; a fact is no neighbor
of itself. -/
def addNeighbor (l : Links) (fact neighbor : Nat) : Links :=
  if fact = neighbor then l
  else
    { l with neighbors := l.neighbors.update fact [] (Listing.add · neighbor) }

/-- Note what a fact at a start was bound from. -/
def addContext (l : Links) (fact context : Nat) : Links :=
  { l with contexts := l.contexts.update fact [] (Listing.add · context) }

end Links

/-- The tables of a run. -/
structure State (D W L : Type) where
  /-- The flow graph, which flow functions may let grow. -/
  graph : FlowGraph
  /-- The facts seen so far; a fact's number is its place. -/
  facts : List D
  /-- The jump functions of the path edges, by node and by source and
  target. -/
  jumps : Grid Node (D × D) W := .empty
  /-- Who entered which procedure with which fact. -/
  incoming : List (Incoming D) := []
  /-- The jump functions with which exits were visited. -/
  summaries : Table (SummaryEdge D) W := .empty
  /-- What calls pass on, computed once per call site, callee and fact. -/
  callFlows : Grid Node (Proc × D) (List (D × W)) := .empty
  /-- The callees met at call sites. -/
  known : List (Node × Proc) := []
  /-- The path edges still to be followed. -/
  worklist : List (PathEdge D) := []
  /-- Where values start from. -/
  seeds : List (Seed D L) := []
  links : Links := {}
  /-- The exploded edges recorded, the latest first. -/
  exploded : List (ExplodedEdge D) := []
  stats : Statistics := {}
  /-- The revision of the graph at the last look over all call sites. -/
  seenRevision : Nat := 0
  /-- Whether a flow function has asked to stop. -/
  cancelled : Bool := false
  /-- The count of flow functions evaluated. -/
  evaluations : Nat := 0
deriving Repr

/-- A solver set up to run: the problem, the settings, how the flow
graph is looked at, and what goes on around it. -/
structure Setup (D W L : Type) where
  problem : Problem D W L
  config : Config := {}
  view : FlowGraph → Icfg := FlowGraph.icfg
  world : World := {}

namespace Setup

variable {D W L : Type} (S : Setup D W L)

/-- The values on which joins are probed. -/
def samples : List L :=
  S.problem.samples ++ S.problem.initial :: S.problem.seeds.map Seed.value

/-- The identity edge function. -/
def identity : W := S.problem.functions.identity

/-- First the one edge function, then the other. -/
def comp (f g : W) : W := S.problem.functions.comp f g

/-- Whether a join of edge functions is above both on the samples. -/
def isUpperBound [DecidableEq L] (joined f g : W) : Bool :=
  S.problem.functions.isUpperBound S.problem.lattice joined f g S.samples

variable [DecidableEq D]

/-- Add one answer of a flow function to those before it. A fact that
is there already gets the join of the two edge functions. -/
def mergeTarget (targets : List (D × W)) : D × W → List (D × W)
  | (d, w) =>
    match targets with
    | [] => [(d, w)]
    | (e, v) :: rest =>
      if e = d then (e, S.problem.functions.join v w) :: rest
      else (e, v) :: mergeTarget rest (d, w)

/-- The edge function from `source` to a target: zero stays zero by the
identity. -/
def targetWeight (source : D) : D × W → D × W
  | (d, w) =>
    (d, if source = S.problem.zero ∧ d = S.problem.zero then S.identity else w)

/-- The facts that the solver takes a flow function to yield at
`source`. -/
def effective (source : D) (answer : List (D × W)) : List (D × W) :=
  let targets := (answer.map (S.targetWeight source)).foldl S.mergeTarget []
  if S.config.autoAddZero ∧ source = S.problem.zero ∧
    S.problem.zero ∉ targets.map Prod.fst then
    targets ++ [(S.problem.zero, S.identity)]
  else targets

end Setup

namespace State

variable {D W L : Type} [DecidableEq D]

/-- The number of a fact: how many others were seen before it. Like the
numbers of nodes, it has no limit, and a run with more than 2^32 facts
is left out. -/
def number (s : State D W L) (d : D) : Nat := s.facts.idxOf d

/-- The tables of a run that has not begun. -/
def start (S : Setup D W L) (graph : FlowGraph) : State D W L where
  graph := graph
  facts := [S.problem.zero]

/-- Number the facts that are new. -/
def intern (s : State D W L) (ds : List D) : State D W L :=
  { s with facts := Listing.addAll s.facts ds }

/-- Do what a flow function asked for. -/
def serve (s : State D W L) : Request → State D W L
  | .resolve site target => { s with graph := s.graph.resolve site target }
  | .cancel => { s with cancelled := true }

/-- The callers that entered a procedure with a fact, by call site and
then by the number of the fact there. -/
def callersOf (s : State D W L) (start : Node) (entry : D) :
    List (Incoming D) :=
  Listing.sortOn (fun i => (i.site.id, s.number i.callFact)) <|
    s.incoming.filter fun i => decide (i.start = start ∧ i.entry = entry)

/-- The summaries of a procedure for an entry, by exit and then by the
number of the fact there. -/
def summariesOf (s : State D W L) (proc : Proc) (entry : D) :
    List (SummaryEdge D × W) :=
  Listing.sortOn (fun (e, _) => (e.exit.id, s.number e.exitFact)) <|
    s.summaries.entries.filter fun (e, _) =>
      decide (e.proc = proc ∧ e.entry = entry)

/-- The jump function of a path edge. -/
def jump? (s : State D W L) (e : PathEdge D) : Option W :=
  s.jumps.get? e.node (e.source, e.target)

/-- Give a path edge a jump function. -/
def setJump (s : State D W L) (e : PathEdge D) (w : W) : State D W L :=
  { s with jumps := s.jumps.insert e.node (e.source, e.target) w }

/-- The path edges that end at a node, by the numbers of source and
target. -/
def edgesAt (s : State D W L) (node : Node) : List (PathEdge D) :=
  (Listing.sortOn (fun (source, target) => (s.number source, s.number target))
    (s.jumps.row node).keys).map fun (source, target) =>
    { source, node, target }

/-- The sources of the path edges that end in a fact at a node, with
their jump functions.

They come in the order in which the path edges were stored. That is one
choice among many: where rows are hashed, they come in the order of the
hash table, which nothing fixes. `mem_sourcesOf` says what is listed.
Apart from this, and from equal tables being listed alike, no proof
about runs uses the order. -/
def sourcesOf (s : State D W L) (node : Node) (target : D) : List (D × W) :=
  ((s.jumps.row node).entries.filter fun (k, _) => decide (k.2 = target)).map
    fun (k, w) => (k.1, w)

/-- The targets of the path edges from a fact to a node with their jump
functions, by the number of the target. -/
def targetsOf (s : State D W L) (source : D) (node : Node) : List (D × W) :=
  Listing.sortOn (fun (d, _) => (s.number d, 0)) <|
    ((s.jumps.row node).entries.filter fun (k, _) => decide (k.1 = source)).map
      fun (k, w) => (k.2, w)

/-- The callees met at a call site, by number. -/
def knownCallees (s : State D W L) (site : Node) : List Proc :=
  Listing.sortOn (fun p => (p.id, 0)) <|
    (s.known.filter fun (c, _) => decide (c = site)).map Prod.snd

-- ==================================================== what reading returns

/-- A jump function is changed for its own path edge only. -/
theorem jump?_setJump (s : State D W L) (e e' : PathEdge D) (w : W) :
    (s.setJump e w).jump? e' = if e = e' then some w else s.jump? e' := by
  obtain ⟨a, n, b⟩ := e
  obtain ⟨a', n', b'⟩ := e'
  unfold setJump jump?
  rw [Grid.get?_insert]
  have : (n = n' ∧ (a, b) = (a', b')) ↔ (PathEdge.mk a n b = ⟨a', n', b'⟩) := by
    simp only [Prod.mk.injEq, PathEdge.mk.injEq]
    constructor
    · rintro ⟨hn, ha, hb⟩
      exact ⟨ha, hn, hb⟩
    · rintro ⟨ha, hn, hb⟩
      exact ⟨hn, ha, hb⟩
  simp only [this]

theorem mem_sourcesOf {s : State D W L} {node : Node} {source target : D}
    {w : W} :
    (source, w) ∈ s.sourcesOf node target ↔
    s.jump? ⟨source, node, target⟩ = some w := by
  unfold sourcesOf jump? Grid.get?
  rw [← Table.mem_entries]
  simp only [List.mem_map, List.mem_filter, decide_eq_true_eq, Prod.mk.injEq]
  constructor
  · rintro ⟨⟨⟨a, b⟩, v⟩, ⟨hmem, rfl⟩, rfl, rfl⟩
    exact hmem
  · intro hmem
    exact ⟨((source, target), w), ⟨hmem, rfl⟩, rfl, rfl⟩

theorem mem_targetsOf {s : State D W L} {node : Node} {source target : D}
    {w : W} :
    (target, w) ∈ s.targetsOf source node ↔
    s.jump? ⟨source, node, target⟩ = some w := by
  unfold targetsOf jump? Grid.get?
  rw [Listing.mem_sortOn, ← Table.mem_entries]
  simp only [List.mem_map, List.mem_filter, decide_eq_true_eq, Prod.mk.injEq]
  constructor
  · rintro ⟨⟨⟨a, b⟩, v⟩, ⟨hmem, rfl⟩, rfl, rfl⟩
    exact hmem
  · intro hmem
    exact ⟨((source, target), w), ⟨hmem, rfl⟩, rfl, rfl⟩

theorem mem_edgesAt {s : State D W L} {node : Node} {e : PathEdge D} :
    e ∈ s.edgesAt node ↔ e.node = node ∧ ∃ w, s.jump? e = some w := by
  obtain ⟨a, n, b⟩ := e
  unfold edgesAt jump? Grid.get?
  simp only [List.mem_map, Listing.mem_sortOn, Prod.exists, PathEdge.mk.injEq]
  constructor
  · rintro ⟨a', b', hmem, rfl, rfl, rfl⟩
    exact ⟨rfl, Table.mem_keys.mp hmem⟩
  · rintro ⟨rfl, hw⟩
    exact ⟨a, b, Table.mem_keys.mpr hw, rfl, rfl, rfl⟩

theorem mem_callersOf {s : State D W L} {start : Node} {entry : D}
    {i : Incoming D} :
    i ∈ s.callersOf start entry ↔ i ∈ s.incoming ∧ i.start = start ∧
    i.entry = entry := by
  simp [callersOf]

theorem mem_summariesOf {s : State D W L} {proc : Proc} {entry : D}
    {e : SummaryEdge D} {w : W} :
    (e, w) ∈ s.summariesOf proc entry ↔
      s.summaries.get? e = some w ∧ e.proc = proc ∧ e.entry = entry := by
  simp [summariesOf, Table.mem_entries]

omit [DecidableEq D] in
theorem mem_knownCallees {s : State D W L} {site : Node} {p : Proc} :
    p ∈ s.knownCallees site ↔ (site, p) ∈ s.known := by
  simp [knownCallees]

end State

end Tabulation
