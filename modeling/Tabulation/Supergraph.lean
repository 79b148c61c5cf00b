/-
The exploded supergraph: facts moving through a program with its open
calls.

A place is a node, a fact there, and the calls that are still open,
each with the fact that held at its site. A step crosses one edge of
the supergraph by the flow that the solver takes it to have, and a
return goes back to the innermost open call. A path therefore returns
from where it called, which a path in the bare graph need not.

This is what a solver's answers are about. It keeps no tables and
shares no work between calls.
-/
import Tabulation.EdgeFunction.Laws
import Tabulation.Solver.State

namespace Tabulation

variable {D W L : Type} [DecidableEq D]

-- ============================================================== the flows

namespace Setup

variable (S : Setup D W L)

/-- What an answer is taken to yield; a question without an answer
yields nothing. -/
def targets (d : D) : Except Fault (List (D × W)) → List (D × W)
  | .ok answer => S.effective d answer
  | .error _ => []

/-- The flow to a successor. -/
def normalTargets (node succ : Node) (d : D) : List (D × W) :=
  match S.problem.isIdentityAt node with
  | .ok true => S.effective d [(d, S.identity)]
  | .ok false => S.targets d (S.problem.flow (.normal node succ) d)
  | .error _ => []

/-- The flow into a callee. -/
def callTargets (site : Node) (callee : Proc) (start : Node) (d : D) :
    List (D × W) :=
  S.targets d (S.problem.flow (.call site callee start) d)

/-- The flow back to a caller. -/
def returnTargets (site : Node) (callee : Proc) (exit returnSite : Node)
    (d callFact : D) : List (D × W) :=
  S.targets d (S.problem.returnFlow
      (.ret site callee exit returnSite) d callFact)

/-- The flow past a call. -/
def passTargets (site returnSite : Node) (d : D) : List (D × W) :=
  S.targets d (S.problem.flow (.callToReturn site returnSite) d)

/-- Where the facts of a problem come from: zero at the entries, and
the seeds. -/
def seedsOn (I : Icfg) : List (Seed D L) :=
  (S.problem.entries.filterMap I.start?).map
      (fun node =>
        { node, fact := S.problem.zero, value := S.problem.initial }) ++
    S.problem.seeds

end Setup

-- ================================================================ its steps

/-- An open call: its site, and the fact that held there. -/
structure Frame (D : Type) where
  site : Node
  fact : D
deriving DecidableEq, Repr

/-- A fact at a node, under the calls that are open there, the
innermost first. -/
structure Place (D : Type) where
  node : Node
  fact : D
  stack : List (Frame D) := []
deriving DecidableEq, Repr

namespace Supergraph

variable (S : Setup D W L) (I : Icfg)

/-- One step along an edge, with the edge function crossed. -/
inductive Step : Place D → W → Place D → Prop
  | normal {n m : Node} {d e : D} {w : W} {k : List (Frame D)} :
      I.isCall n = false → I.isExit? n = some false → m ∈ I.successors n →
      (e, w) ∈ S.normalTargets n m d → Step ⟨n, d, k⟩ w ⟨m, e, k⟩
  | call {c s : Node} {g : Proc} {d e : D} {w : W} {k : List (Frame D)} :
      I.isCall c = true → g ∈ I.callees c → I.start? g = some s →
      (e, w) ∈ S.callTargets c g s d → Step ⟨c, d, k⟩ w ⟨s, e, ⟨c, d⟩ :: k⟩
  | ret {x c r : Node} {g : Proc} {d e : D} {w : W} {callFact : D}
      {k : List (Frame D)} : I.isCall x = false → I.isExit? x = some true →
      I.procOf? x = some g →
      I.returnSite? c = some r → (e, w) ∈ S.returnTargets c g x r d callFact →
      Step ⟨x, d, ⟨c, callFact⟩ :: k⟩ w ⟨r, e, k⟩
  | pass {c r : Node} {d e : D} {w : W} {k : List (Frame D)} :
      I.isCall c = true → I.returnSite? c = some r →
      (e, w) ∈ S.passTargets c r d →
      Step ⟨c, d, k⟩ w ⟨r, e, k⟩

/-- A path, with the edge functions crossed in order. -/
inductive Path (a : Place D) : List W → Place D → Prop
  | here : Path a [] a
  | snoc {ws : List W} {w : W} {b c : Place D} :
      Path a ws b → Step S I b w c → Path a (ws ++ [w]) c

/-- A fact can hold at a node: some path leads there from a seed. -/
def Reaches (n : Node) (d : D) : Prop :=
  ∃ seed ∈ S.seedsOn I, ∃ ws k, Path S I ⟨seed.node, seed.fact, []⟩ ws ⟨n, d, k⟩

/-- A value that some path gives a fact at a node. -/
def Yields (n : Node) (d : D) (v : L) : Prop :=
  ∃ seed ∈ S.seedsOn I, ∃ ws k, Path S I ⟨seed.node, seed.fact, []⟩ ws
    ⟨n, d, k⟩ ∧ S.problem.functions.evalAll ws seed.value = v

end Supergraph

end Tabulation
