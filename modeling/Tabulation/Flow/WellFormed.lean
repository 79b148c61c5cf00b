/-
Well-formed control flow: procedures keep to themselves.

What a solver finds is meaningful if control stays inside a procedure
except through calls and returns. A graph that a draft lays out is of
this kind as long as its branches and jumps stay inside their
procedures; a graph put together node by node need not be.
-/
import Tabulation.Flow.Icfg

namespace Tabulation.Icfg

/-- Control leaves a procedure through calls and returns only. -/
structure WellFormed (I : Icfg) : Prop where
  /-- A start belongs to its procedure. -/
  start_owned : ∀ {p : Proc} {s : Node}, I.start? p = some s →
    I.procOf? s = some p
  /-- A successor belongs to the same procedure. -/
  successor_owned : ∀ {p : Proc} {n m : Node},
    I.procOf? n = some p → m ∈ I.successors n → I.procOf? m = some p
  /-- A return site belongs to the procedure of its call. -/
  returnSite_owned : ∀ {p : Proc} {c r : Node},
    I.procOf? c = some p → I.returnSite? c = some r → I.procOf? r = some p
  /-- A call is listed by its procedure. -/
  call_listed : ∀ {p : Proc} {c : Node},
    I.procOf? c = some p → I.isCall c = true → c ∈ I.callsWithin p
  /-- Whether a node is an exit is known of every node that has a
  procedure. -/
  exit_known : ∀ {p : Proc} {n : Node}, I.procOf? n = some p →
    (I.isExit? n).isSome

/-- Nodes that control can reach, whatever the facts: along successors
of nodes that neither call nor leave, into the starts of callees, and
past calls. -/
inductive Reachable (I : Icfg) (entries : List Proc) : Node → Prop
  | entry {p : Proc} {s : Node} : p ∈ entries → I.start? p = some s →
      Reachable I entries s
  | succ {n m : Node} : Reachable I entries n → I.isCall n = false →
      I.isExit? n = some false → m ∈ I.successors n → Reachable I entries m
  | callee {c s : Node} {g : Proc} : Reachable I entries c → I.isCall c = true →
      g ∈ I.callees c → I.start? g = some s → Reachable I entries s
  | pass {c r : Node} : Reachable I entries c → I.isCall c = true →
      I.returnSite? c = some r → Reachable I entries r

end Tabulation.Icfg
