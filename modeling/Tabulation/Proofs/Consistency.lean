/-
No run finds a gap in its tables.

The solver keeps several tables, each with keys of its own, and reads
one by what it finds in another: a jump function by the path edge that
is pending, a call flow by the caller that is noted at a start, a value
by the fact that is pending. Where the other table has no such entry,
it gives up with a verdict on itself (`Gap`). Each entry is made before
the one that leads to it, whatever the flow functions answer and
whatever is asked for on the way, so nothing is ever looked up in vain.

# Starts

Callers are noted by the start they enter, and looked up by the
procedure that owns the exit. The two fit together because procedures
own their starts. Where two of them share one, a caller of the first is
taken for one of the second, and its call flow is not there.

The gap that is left is an exit whose procedure has no start. A graph
that came about by mutations has no such procedure: the first node that
is registered under it is its start (`OwnersStart`).
-/
import Tabulation.Proofs.LateCallees
import Tabulation.Proofs.Solver.Settling

namespace Tabulation

variable {D W L : Type}

/-- Where the procedures that own nodes have starts, no gap is excused. -/
theorem FlowGraph.OwnersStart.not_excused {g : FlowGraph} (h : g.OwnersStart)
    (gap : Gap) :
    ¬Failure.Excused g.icfg
      (.rejected (.inconsistent gap) : Failure D W L) := by
  intro hexcused
  cases gap with
  | startOf exit proc =>
    obtain ⟨howner, hnone⟩ := hexcused
    obtain ⟨start, hstart⟩ := h exit proc howner
    cases hnone.symm.trans hstart
  | jumpFunction _ => exact hexcused
  | callFlow _ _ => exact hexcused
  | value _ => exact hexcused

namespace Solver

variable [DecidableEq D] {S : Setup D W L} {I : Icfg} {graph : FlowGraph}
variable {s : State D W L}

/-- Handing out what was found can only fail for a node that no
procedure owns. That is not a gap in the tables. -/
private theorem excused_of_report {status : Status}
    {values : Option (Grid Node D L)} :
    Ensures (Failure.Excused I) (report S status values)
      (fun _ _ => True) s := by
  unfold report
  refine Ensures.get_bind ?_
  exact (ensures_ask _).bind fun _ _ _ => Ensures.pure trivial

variable [DecidableEq L]

/-- The value phase finds a value for all that is pending, so it
reports no gap either. -/
theorem ensures_valuePhase (fuel : Nat) (status : Status) :
    Ensures (Failure.Excused I) (valuePhase S fuel status)
      (fun _ _ => True) s := by
  unfold valuePhase
  split
  · refine Ensures.get_bind ?_
    have hbacking := Values.isBacking_trivial S s
    have hcompute := Values.ensures_compute (I := I)
      ValueLattice.isJoinOrder_trivial hbacking.toIsSettling
      hbacking.isSpreading fuel
    cases hfound : Values.compute S s fuel {} with
    | error failure found => exact Ensures.throw (hcompute.of_error hfound)
    | ok _ found => exact Ensures.modify_bind (Ensures.pure trivial)
  · exact Ensures.pure trivial

variable [DecidableEq W]

/-- Whatever a run fails of, it is not a gap in its tables, or it is
that of an exit whose procedure has no start. -/
theorem ensures_run (hsteady : S.IsSteady)
    (hown : ∀ {p : Proc} {n : Node}, (S.view graph).start? p = some n →
      (S.view graph).procOf? n = some p) (fuel : Nat) :
    Ensures (Failure.Excused (S.view graph)) (run S fuel) (fun _ _ => True)
      (State.start S graph) := by
  rw [run_eq]
  refine (ensures_begin isGrowthOrder_trivial hown).bind fun _ s₁ hplanted => ?_
  have hprogress := hplanted.inProgress fun _ _ => False
  refine (ensures_tabulate isGrowthOrder_trivial hsteady hown fuel hprogress
    fun h => absurd h id).bind fun status s₂ _ => ?_
  exact (ensures_valuePhase fuel status).bind fun _ _ _ => excused_of_report

/-- No run on a graph that came about by mutations, and whose
procedures own their starts, finds a gap in its tables: no path edge
without a jump function, no exit without a start, no caller without the
call flow by which it entered, and no pending value that is missing. -/
theorem solve_ne_inconsistent (hview : S.view = FlowGraph.icfg)
    (steps : List FlowGraph.Mutation)
    (hown : ∀ p n, (FlowGraph.mutateAll {} steps).start? p = some n →
      (FlowGraph.mutateAll {} steps).procOf? n = some p) (fuel : Nat)
    (gap : Gap) :
    (solve S fuel (FlowGraph.mutateAll {} steps)).1 ≠
      .error (.rejected (.inconsistent gap)) := by
  intro hgap
  have hstarts : ∀ {p : Proc} {n : Node},
      (S.view (FlowGraph.mutateAll {} steps)).start? p = some n →
        (S.view (FlowGraph.mutateAll {} steps)).procOf? n = some p := by
    rw [hview]
    exact fun h => hown _ _ h
  have hensures := ensures_run (Setup.isSteady_of_view_eq hview) hstarts fuel
  unfold solve at hgap
  cases hrun : run S fuel (State.start S (FlowGraph.mutateAll {} steps)) with
  | ok r s' =>
    rw [hrun] at hgap
    cases hgap
  | error failure s' =>
    rw [hrun] at hgap
    cases hgap
    have hexcused := hensures.of_error hrun
    rw [hview] at hexcused
    exact (FlowGraph.ownersStart_empty.mutateAll steps).not_excused gap hexcused

/-- A run that is asked for a further call target on the way finds no
gap. -/
theorem solve_ne_inconsistent_lateTarget :
    (∀ p n, lateTarget.build.graph.start? p = some n →
      lateTarget.build.graph.procOf? n = some p) ∧
    ∀ fuel gap, (solve lateTargetSetup fuel lateTarget.build.graph).1 ≠
      .error (.rejected (.inconsistent gap)) := by
  have hlaid : lateTarget.build.IsLaidOut :=
    Draft.isLaidOut_build (Draft.isNumbered_ofSteps _)
      (by unfold Draft.IsScoped; decide)
  have hown : ∀ p n, lateTarget.build.graph.start? p = some n →
      lateTarget.build.graph.procOf? n = some p :=
        fun _ _ h => hlaid.wellFormed.start_owned h
  exact ⟨hown, solve_ne_inconsistent rfl lateTarget.layout hown⟩

/-- A call of a procedure whose only node is registered a second time,
under another procedure. -/
def sharedStart : FlowGraph := .mutateAll {} [
  .addNode ⟨0⟩ ⟨0⟩,
  .addNode ⟨0⟩ ⟨1⟩,
  .addNode ⟨1⟩ ⟨2⟩,
  .addNode ⟨2⟩ ⟨2⟩,
  .addCall ⟨0⟩ ⟨1⟩ [⟨1⟩],
  .addExit ⟨2⟩]

/-- One fact, which goes everywhere. -/
def oneFact : ReachabilityProblem Unit where
  zero := ()
  entries := [⟨0⟩]
  flow := fun _ d => .ok [d]

-- the call flow is on record for the one procedure, and looked up for the other
example : (solve { problem := oneFact.toProblem } 10 sharedStart).1 =
    .error (.rejected (.inconsistent (.callFlow ⟨0⟩ ⟨2⟩))) := rfl

end Solver

end Tabulation
