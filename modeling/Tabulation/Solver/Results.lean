/-
Results: the facts, with their values, that hold before each node.

Absence means that a fact cannot hold, but only if the run was
complete; after a run that stopped early it means nothing.
-/
import Tabulation.Solver.State

namespace Tabulation

/-- What is known of a fact at a node. -/
inductive Reachability where
  | reachable
  | unreachable
  | unknown
deriving DecidableEq, Repr

namespace Reachability

/-- The name of an answer. -/
def render : Reachability → String
  | reachable => "Reachable"
  | unreachable => "Unreachable"
  | unknown => "Unknown"

end Reachability

/-- The facts that hold before a node. -/
structure Row (D L : Type) where
  node : Node
  proc : Proc
  values : Table D L
deriving Repr

/-- What a run found. -/
structure Results (D L : Type) where
  /-- The reached nodes, in ascending order. -/
  rows : List (Row D L)
  zero : D
  /-- The value of a fact that does not hold. -/
  bottom : L
  status : Status
  statistics : Statistics
  /-- The facts that were merged into a fact. -/
  neighbors : Table D (List D)
  /-- The facts at call sites that a fact at a start was bound from. -/
  contexts : Table D (List D)
  exploded : List (ExplodedEdge D)
deriving Repr

/-- One fact with its value, where it holds. -/
structure ResultEntry (D L : Type) where
  node : Node
  proc : Proc
  fact : D
  value : L
deriving DecidableEq, Repr

namespace ResultEntry

/-- The written form of an entry. -/
def render {D L : Type} [ToString D] [ToString L] (e : ResultEntry D L) :
    String :=
  s!"{e.node}@{e.proc}: {e.fact} = {e.value}"

end ResultEntry

namespace Results

variable {D L : Type}

/-- The reached nodes, in ascending order. -/
def reachedNodes (r : Results D L) : List Node := r.rows.map Row.node

/-- The row of a node. -/
def row? (r : Results D L) (n : Node) : Option (Row D L) :=
  r.rows.find? fun row => decide (row.node = n)

/-- Whether a node was reached. -/
def hasResultsAt (r : Results D L) (n : Node) : Bool := (r.row? n).isSome

variable [DecidableEq D]

/-- The value stored for a fact at a node. -/
def value? (r : Results D L) (n : Node) (d : D) : Option L :=
  (r.row? n).bind fun row => row.values.get? d

/-- Whether a fact holds before a node. -/
def holdsFact (r : Results D L) (n : Node) (d : D) : Reachability :=
  match r.value? n d, r.status with
  | some _, _ => .reachable
  | none, .complete => .unreachable
  | none, .incomplete _ => .unknown

/-- The value of a fact before a node, the bottom if it does not hold
there. -/
def resultAt (r : Results D L) (n : Node) (d : D) : L :=
  (r.value? n d).getD r.bottom

/-- The facts other than zero that hold before a node, with their
values. -/
def resultsAt (r : Results D L) (n : Node) : List (D × L) :=
  match r.row? n with
  | some row => row.values.entries.filter fun (d, _) => decide (d ≠ r.zero)
  | none => []

/-- All facts other than zero with their values, by node. -/
def entries (r : Results D L) : List (ResultEntry D L) :=
  r.rows.flatMap fun row =>
    (row.values.entries.filter fun (d, _) => decide (d ≠ r.zero)).map
      fun (fact, value) =>
      { node := row.node, proc := row.proc, fact, value }

/-- The facts that were merged into a fact, if links were tracked. -/
def neighborsOf (r : Results D L) (d : D) : List D := r.neighbors.getD d []

/-- The facts at call sites that a fact was bound from, if links were
tracked. -/
def contextsOf (r : Results D L) (d : D) : List D := r.contexts.getD d []

-- ============================================================== assembling

/-- A table of links, with facts in place of numbers. Linked facts are
listed by number. -/
def resolveLinks (facts : List D) (links : SlotMap (List Nat)) :
    Table D (List D) :=
  links.toList.foldl (fun t (k, linked) =>
    match facts[k]? with
    | some d =>
      t.insert d ((Listing.sortOn (fun j => (j, 0)) linked).filterMap
          fun j => facts[j]?)
    | none => t) .empty

/-- The facts that path edges end in at a node, in the order of their
discovery. -/
def factsAt {W : Type} (jumps : Grid Node (D × D) W) (node : Node) : List D :=
  Listing.distinct ((jumps.row node).keys.map Prod.snd)

/-- The row of a node: its procedure, and the values of the facts
reached there. -/
def assembleRow {W : Type} (graph : Icfg) (valueOf : Node → D → L)
    (jumps : Grid Node (D × D) W) (node : Node) : Except Fault (Row D L) :=
  match graph.procOf? node with
  | none => .error (.unknownNode node)
  | some proc =>
    .ok {
      node
      proc
      values := .ofKeys (factsAt jumps node) (Listing.nodup_distinct _)
        (valueOf node) }

/-- The rows of all reached nodes, in ascending order. -/
def assembleRows {W : Type} (graph : Icfg) (valueOf : Node → D → L)
    (jumps : Grid Node (D × D) W) : Except Fault (List (Row D L)) :=
  (Listing.sortOn (fun n => (n.id, 0)) jumps.rows.keys).mapM
    (assembleRow graph valueOf jumps)

end Results

end Tabulation
