/-
Which edges of a program are followed.

Zero stands for control: where it does not get to, a program is
reported not to be reached. From a statement that does not return,
control can go to each successor of its node. A solver looks at the
successors of a node only if nothing is called there. From a call it
goes on to the node that the call returns to, and into the callees.

# Branches and jumps out of calls

For most programs this comes to the same, as the next statement is the
only successor of a call. But a branch or a jump may start at a call,
too. It adds a successor like any other (`Program.Edges`), and is not
followed. So code behind it counts as unreached, unless control gets
there by another way.

# Exactly these

All other edges are followed. An edge is left out if and only if it is
a branch or a jump out of a call to a node that control does not reach
without it (`Draft.Skips`).
-/
import Tabulation.Proofs.Program.Analysis
import Tabulation.Proofs.Program.Text
import Tabulation.Proofs.ZeroFact

namespace Tabulation

open LocalFact Solver

variable {W L : Type} [DecidableEq W] [DecidableEq L]
variable {steps : List Draft.Step} {entries : List Proc} {n m c : Node}
variable {s : Stmt}

-- ============================================================ left-out edges

/-- A branch or a jump out of a call, to a node that control does not
reach without it. -/
structure Draft.Skips (steps : List Draft.Step) (entries : List Proc)
    (c m : Node) : Prop where
  isCall : ∃ s, (ofSteps steps).build.stmts.get? c = some s ∧ s.isCall = true
  diverts : ∃ step ∈ steps, step.Diverts c m
  unreached : ¬(ofSteps steps).build.graph.icfg.Reachable entries m

/-- Zero is wherever control can go in one step from a statement that
has it and does not return. -/
def Results.FollowsEdges (r : Results LocalFact L) (P : Program) : Prop :=
  ∀ {n m s}, P.stmts.get? n = some s → s.isReturn = false →
    r.holdsFact n .zero = .reachable → m ∈ P.graph.successors n →
    r.holdsFact m .zero = .reachable

/-- What a report shows of the edges out of the statements that have
zero and do not return. -/
structure Results.FollowsUnskipped (r : Results LocalFact L)
    (steps : List Draft.Step) (entries : List Proc) : Prop where
  /-- An edge is followed unless it is left out. -/
  edge : ∀ {n m s}, (Draft.ofSteps steps).build.stmts.get? n = some s →
    s.isReturn = false → r.holdsFact n .zero = .reachable →
    m ∈ (Draft.ofSteps steps).build.graph.successors n →
    (r.holdsFact m .zero = .reachable ↔ ¬Draft.Skips steps entries n m)
  /-- All edges are followed if none is left out. -/
  all : r.FollowsEdges (Draft.ofSteps steps).build ↔
    ∀ {c m}, r.holdsFact c .zero = .reachable → ¬Draft.Skips steps entries c m

/-- Control gets along an edge, or the edge is left out. At a node that
is no call this is a step inside a procedure; at a call, only the edge
to its return site is. -/
theorem Draft.IsProper.reachable_iff (hsteps : Draft.IsProper steps)
    (hs : (Draft.ofSteps steps).build.stmts.get? n = some s)
    (hret : s.isReturn = false)
    (hn : (Draft.ofSteps steps).build.graph.icfg.Reachable entries n)
    (hm : m ∈ (Draft.ofSteps steps).build.graph.successors n) :
    (Draft.ofSteps steps).build.graph.icfg.Reachable entries m ↔
      ¬Draft.Skips steps entries n m := by
  refine ⟨fun hreach hskips => hskips.unreached hreach, fun hfollowed => ?_⟩
  have hP := hsteps.isLaidOut
  have hisCall := hP.isCall hs
  have hisExit := hP.isExit hs
  cases hcall : s.isCall with
  | false =>
    rw [hcall] at hisCall
    rw [hret] at hisExit
    exact .succ hn hisCall (congrArg some hisExit) hm
  | true =>
    rw [hcall] at hisCall
    rcases (Draft.mem_successors_of_isCall (Draft.isNumbered_ofSteps steps) hs
      hcall).mp hm with hr | hextra
    · exact .pass hn hisCall hr
    · by_contra hunreached
      exact hfollowed ⟨⟨s, hs, hcall⟩,
          (Draft.mem_extraEdges_ofSteps hsteps.answered).mp hextra, hunreached⟩

/-- What is left out is an edge. The graph lists it among the
successors of the call. -/
theorem Draft.Skips.mem_successors (hsteps : Draft.IsProper steps)
    (h : Draft.Skips steps entries c m) :
    m ∈ (Draft.ofSteps steps).build.graph.successors c := by
  obtain ⟨s, hs, hcall⟩ := h.isCall
  exact (Draft.mem_successors_of_isCall (Draft.isNumbered_ofSteps steps) hs
    hcall).mpr (Or.inr
    ((Draft.mem_extraEdges_ofSteps hsteps.answered).mpr h.diverts))

-- ==================================================================== runs

section Runs

variable {S : Setup LocalFact W L} {fuel : Nat} {r : Results LocalFact L}

/-- An analysis without seeds finds zero exactly where control gets to.
Zero is kept alive by the solver, whatever the flow functions do with
it. -/
theorem Analyzes.holdsFact_zero_iff
    (hS : Analyzes (Draft.ofSteps steps).build S)
    (hsteps : Draft.IsProper steps) (hpure : S.problem.IsPure)
    (hseeds : S.problem.seeds = []) (hadd : S.config.autoAddZero = true)
    (hrun : (solve S fuel (Draft.ofSteps steps).build.graph).1 = .ok r)
    (hcomplete : r.status = .complete) (n : Node) :
    r.holdsFact n zero = .reachable ↔
      (Draft.ofSteps steps).build.graph.icfg.Reachable S.problem.entries n := by
  have hwf : (S.view (Draft.ofSteps steps).build.graph).WellFormed := by
    rw [hS.view_eq]
    exact hsteps.isLaidOut.wellFormed
  have hgraph := graph_of_isPure hwf.start_owned hpure hrun hcomplete
  obtain ⟨s₁, s, values?, hdone⟩ := completed_of_solve hrun hcomplete
  have hs := hdone.rounded (Setup.isSteady_of_isPure hpure) hwf fun c =>
    congrArg (fun g => (S.view g).callees c) hgraph
  rw [hdone.holdsFact_iff, ← hS.zero_eq, ← hS.view_eq]
  constructor
  · intro h
    obtain ⟨source, he⟩ := h
    exact hs.reachable_of_recorded hseeds he
  · exact hs.recorded_of_reachable hadd

/-- An analysis follows the edges that are not left out, and no others.
With zero standing for control, this is `Draft.IsProper.reachable_iff`. -/
theorem Analyzes.followsUnskipped (hS : Analyzes (Draft.ofSteps steps).build S)
    (hsteps : Draft.IsProper steps) (hpure : S.problem.IsPure)
    (hseeds : S.problem.seeds = []) (hadd : S.config.autoAddZero = true)
    (hrun : (solve S fuel (Draft.ofSteps steps).build.graph).1 = .ok r)
    (hcomplete : r.status = .complete) :
    r.FollowsUnskipped steps S.problem.entries := by
  have hzero := hS.holdsFact_zero_iff hsteps hpure hseeds hadd hrun hcomplete
  have hedge : ∀ {n m s}, (Draft.ofSteps steps).build.stmts.get? n = some s →
      s.isReturn = false → r.holdsFact n zero = .reachable →
      m ∈ (Draft.ofSteps steps).build.graph.successors n →
      (r.holdsFact m zero = .reachable ↔
        ¬Draft.Skips steps S.problem.entries n m) := by
    intro n m s hs hret hn hm
    rw [hzero]
    exact hsteps.reachable_iff hs hret ((hzero n).mp hn) hm
  refine ⟨hedge, ?_⟩
  constructor
  · intro hfollows c m hc hskips
    obtain ⟨s, hs, hcall⟩ := hskips.isCall
    have hm := hfollows hs (Stmt.isReturn_of_isCall hcall) hc
      (hskips.mem_successors hsteps)
    exact hskips.unreached ((hzero m).mp hm)
  · intro hnone n m s hs hret hn hm
    exact (hedge hs hret hn hm).mpr (hnone hn)

end Runs

/-- From a statement that does not return, zero gets along every edge
but the branches and jumps out of calls to nodes that control does not
reach without them. So it follows all edges if and only if there are
none of these at the calls that it gets to. Both analyses are like
that, with whatever settings keep zero alive. -/
theorem followsEdges_iff_no_skips (hsteps : Draft.IsProper steps)
    (entries : List Proc) (world : World) (fuel : Nat) (config : Config)
    (hadd : config.autoAddZero = true) :
    (∀ {r}, (solve
        (LinearConstants.seeded (Draft.ofSteps steps).build entries []
          (fun _ _ _ => []) config world) fuel
        (Draft.ofSteps steps).build.graph).1 = .ok r →
      r.status = .complete → r.FollowsUnskipped steps entries) ∧
    ∀ {r}, (solve
        (Uninitialized.seeded (Draft.ofSteps steps).build entries []
          (fun _ _ _ => []) config world) fuel
        (Draft.ofSteps steps).build.graph).1 = .ok r →
      r.status = .complete → r.FollowsUnskipped steps entries := by
  constructor
  · intro r hrun hcomplete
    exact (LinearConstants.analyzes ..).followsUnskipped hsteps
      (fun _ _ _ => rfl) rfl hadd hrun hcomplete
  · intro r hrun hcomplete
    exact (Uninitialized.analyzes ..).followsUnskipped hsteps
      (fun _ _ _ => rfl) rfl hadd hrun hcomplete

/-- A call, with a branch to code behind the return. -/
def branchAtCall : List Draft.Step := [
  .declare "main" [],
  .write ⟨0⟩ (.call .indirect [] none),
  .write ⟨0⟩ (.ret none),
  .write ⟨0⟩ .nop,
  .branch ⟨0⟩ ⟨0⟩ ⟨2⟩]

private theorem isProper_branchAtCall : Draft.IsProper branchAtCall :=
  ⟨Draft.answered_of_isOk (by decide +kernel), by decide⟩

/-- The branch is not followed, though the node behind it is a
successor of the call. -/
theorem followsEdges_iff_no_skips_branchAtCall :
    Draft.Skips branchAtCall [⟨0⟩] ⟨0⟩ ⟨2⟩ ∧
    (∃ r, (solve
        (LinearConstants.seeded (Draft.ofSteps branchAtCall).build [⟨0⟩] []
          (fun _ _ _ => []) {} {}) 100
        (Draft.ofSteps branchAtCall).build.graph).1 = .ok r ∧
      r.status = .complete ∧ r.holdsFact ⟨0⟩ zero = .reachable ∧
      r.holdsFact ⟨1⟩ zero = .reachable ∧ r.holdsFact ⟨2⟩ zero = .unreachable ∧
      ¬r.FollowsEdges (Draft.ofSteps branchAtCall).build) ∧
    ∃ r, (solve
        (Uninitialized.seeded (Draft.ofSteps branchAtCall).build [⟨0⟩] []
          (fun _ _ _ => []) .reachability {}) 100
        (Draft.ofSteps branchAtCall).build.graph).1 = .ok r ∧
      r.status = .complete ∧ r.holdsFact ⟨0⟩ zero = .reachable ∧
      r.holdsFact ⟨1⟩ zero = .reachable ∧ r.holdsFact ⟨2⟩ zero = .unreachable ∧
      ¬r.FollowsEdges (Draft.ofSteps branchAtCall).build := by
  have heval :
      (solve (LinearConstants.seeded (Draft.ofSteps branchAtCall).build [⟨0⟩] []
      (fun _ _ _ => []) {} {}) 100
      (Draft.ofSteps branchAtCall).build.graph).1.toOption.map
      (fun r => (r.status, r.holdsFact ⟨0⟩ zero, r.holdsFact ⟨1⟩ zero,
      r.holdsFact ⟨2⟩ zero)) =
      some (.complete, .reachable, .reachable, .unreachable) := by
      decide +kernel
  have heval' :
      (solve (Uninitialized.seeded (Draft.ofSteps branchAtCall).build [⟨0⟩] []
      (fun _ _ _ => []) .reachability {}) 100
      (Draft.ofSteps branchAtCall).build.graph).1.toOption.map
      (fun r => (r.status, r.holdsFact ⟨0⟩ zero, r.holdsFact ⟨1⟩ zero,
        r.holdsFact ⟨2⟩ zero)) =
        some (.complete, .reachable, .reachable, .unreachable) := by
        decide +kernel
  have hstmt : (Draft.ofSteps branchAtCall).build.stmts.get? ⟨0⟩ =
      some (.call .indirect [] none) := by decide +kernel
  have hbranch : (⟨2⟩ : Node) ∈
      (Draft.ofSteps branchAtCall).build.graph.successors ⟨0⟩ := by
    decide +kernel
  obtain ⟨r, hrun, hr⟩ := exists_ok_of_map heval
  obtain ⟨r', hrun', hr'⟩ := exists_ok_of_map heval'
  simp only [Prod.mk.injEq] at hr hr'
  obtain ⟨hcomplete, hcall, hnext, hbehind⟩ := hr
  obtain ⟨hcomplete', hcall', hnext', hbehind'⟩ := hr'
  have hconstants := (followsEdges_iff_no_skips isProper_branchAtCall
    [⟨0⟩] {} 100 {} rfl).1 hrun hcomplete
  have huninitialized := (followsEdges_iff_no_skips isProper_branchAtCall
    [⟨0⟩] {} 100 .reachability rfl).2 hrun' hcomplete'
  have hskips : Draft.Skips branchAtCall [⟨0⟩] ⟨0⟩ ⟨2⟩ := by
    by_contra hnone
    have hreached := (hconstants.edge hstmt rfl hcall hbranch).mpr hnone
    rw [hbehind] at hreached
    cases hreached
  refine ⟨hskips, ⟨r, hrun, hcomplete, hcall, hnext, hbehind, fun h => ?_⟩,
    r', hrun', hcomplete', hcall', hnext', hbehind', fun h => ?_⟩
  · exact hconstants.all.mp h hcall hskips
  · exact huninitialized.all.mp h hcall' hskips

end Tabulation
