/-
The second phase: from jump functions to values.

Values are first carried from start to call site by jump functions and
from call site to start by call flows, beginning at the seeds, until
they no longer change. Then every path edge gives its target the value
of its source at the start, through its jump function. A start is no
exception: a loop back to the first node of a procedure may reach it
with further facts.
-/
import Tabulation.Solver.Tabulate

namespace Tabulation

/-- The values found so far. -/
structure ValueState (D L : Type) where
  values : Grid Node D L := .empty
  /-- Values that changed and were not yet carried on. -/
  pending : List (Node × D) := []
  /-- The count of changes. -/
  propagations : Nat := 0
deriving Repr

/-- A computation on the values of a run. -/
abbrev ValueM (D W L : Type) := EStateM (Failure D W L) (ValueState D L)

namespace Values

variable {D W L : Type} [DecidableEq D] [DecidableEq W] [DecidableEq L]
variable (S : Setup D W L) (T : State D W L)

/-- An answer of the graph about a node, which some procedure has to
own. -/
def askOf {α : Type} (node : Node) : Option α → ValueM D W L α
  | some a => pure a
  | none => throw (.fault (.unknownNode node))

/-- Store a value and let it be carried on. -/
def store (node : Node) (d : D) (v : L) : ValueM D W L Unit :=
  modify fun s =>
    { s with
      values := s.values.insert node d v
      pending := s.pending ++ [(node, d)]
      propagations := s.propagations + 1 }

/-- Let a value reach a fact at a node, joining it to the one that is
there. -/
def reach (node : Node) (d : D) (v : L) : ValueM D W L Unit := do
  match (← get).values.get? node d with
  | none => store node d v
  | some previous =>
    let lattice := S.problem.lattice
    let joined := lattice.join previous v
    if S.config.checkMonotonicity &&
      !(lattice.leq previous joined && lattice.leq v joined) then
      throw (.rejected (.valueRegressed node d previous v joined))
    else if joined = previous then pure ()
    else store node d joined

-- =============================================== starts and call sites

/-- Carry a value from a start to the call sites of its procedure. -/
def carryToCalls (graph : Icfg) (node : Node) (d : D) (v : L) :
    ValueM D W L Unit := do
  let proc ← askOf node (graph.procOf? node)
  (graph.callsWithin proc).forM fun site =>
    (T.targetsOf d site).forM fun (target, w) =>
      reach S site target (S.problem.functions.eval w v)

/-- Carry a value from a call site to the starts of the callees met
there. -/
def carryToCallees (graph : Icfg) (site : Node) (d : D) (v : L) :
    ValueM D W L Unit :=
  (T.knownCallees site).forM fun callee =>
    match graph.start? callee with
    | none => pure ()
    | some start =>
      (T.callFlows.getD site (callee, d) []).forM fun (entry, w) =>
        reach S start entry (S.problem.functions.eval w v)

/-- Carry a changed value on. -/
def carry (node : Node) (d : D) : ValueM D W L Unit := do
  match (← get).values.get? node d with
  | none => throw (.rejected (.inconsistent (.value node)))
  | some v =>
    let graph := S.view T.graph
    if ← askOf node (graph.isStart? node) then carryToCalls S T graph node d v
    if graph.isCall node then carryToCallees S T graph node d v

/-- Carry values on until none has changed. -/
def settle : Nat → ValueM D W L Unit
  | 0 => throw .outOfFuel
  | fuel + 1 => do
    let s ← get
    match s.pending with
    | [] => pure ()
    | (node, d) :: rest => do
      set { s with pending := rest }
      carry S T node d
      settle fuel

-- ========================================================= all other nodes

/-- The value a path edge gives its target, if its source has one. -/
def valueOf? (values : Grid Node D L) (node : Node) (source : D) (w : W) :
    Except (Failure D W L) (Option L) :=
  let graph := S.view T.graph
  match graph.procOf? node with
  | none => .error (.fault (.unknownNode node))
  | some proc =>
    .ok <| do
      let start ← graph.start? proc
      let v ← values.get? start source
      return S.problem.functions.eval w v

/-- The values that all path edges give their targets. -/
def valuesAtTargets (values : Grid Node D L) :
    List (Node × (D × D) × W) → Except (Failure D W L) (List (Node × D × L))
  | [] => .ok []
  | (node, (source, target), w) :: rest => do
    let v? ← valueOf? S T values node source w
    let others ← valuesAtTargets values rest
    match v? with
    | some v => return (node, target, v) :: others
    | none => return others

/-- Give every path edge's target its value. The path edges come row by
row and as they were stored, which is one order among many, as with
`State.sourcesOf`. -/
def spread : ValueM D W L Unit := do
  match valuesAtTargets S T (← get).values T.jumps.cells with
  | .error failure => throw failure
  | .ok found => found.forM fun (node, d, v) => reach S node d v

/-- Compute the values of all reached facts. -/
def compute (fuel : Nat) : ValueM D W L Unit := do
  T.seeds.forM fun seed => reach S seed.node seed.fact seed.value
  settle S T fuel
  spread S T

end Values

end Tabulation
