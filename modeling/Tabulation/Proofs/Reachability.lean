/-
A complete run finds exactly the facts that can be reached.

The tables summarize a procedure once for each fact it is entered with
and use the summary at every call, whichever of the two comes first.
The exploded supergraph knows nothing of that: it keeps a stack of open
calls and goes down one path at a time. For a problem that asks for
nothing on a well-formed graph, the two agree on every node and every
fact, in either order of the worklist.

One direction says that tables hold nothing but what paths lead to
(`Derivable.reaches`), the other that stable tables account for every
path (`traced_of_path`).
-/
import Tabulation.Analysis.Uninitialized
import Tabulation.Proofs.Coverage
import Tabulation.Proofs.Program.Layout

namespace Tabulation

variable {D W L : Type} [DecidableEq D] [DecidableEq W] [DecidableEq L]

/-- Paths with no quantity to act on. Every code accounts for every
effect, and what remains of `Traced` is that there are path edges at
all. -/
def Coverage.bare (S : Setup D W L) : Coverage S Unit where
  act := fun _ a => a
  Weight := fun _ => True
  Covers := fun _ _ => True
  identity := trivial
  weight := fun _ => trivial
  comp := fun _ _ => trivial
  join_left := fun _ => trivial
  join_right := fun _ => trivial

namespace Solver

variable {S : Setup D W L} {fuel : Nat} {graph : FlowGraph} {r : Results D L}

/-- A fact holds before a node if and only if some path of the exploded
supergraph leads there from a seed. -/
theorem holdsFact_iff_reaches (hwf : (S.view graph).WellFormed)
    (hpure : S.problem.IsPure) (hrun : (solve S fuel graph).1 = .ok r)
    (hcomplete : r.status = .complete) (n : Node) (d : D) :
    r.holdsFact n d = .reachable ↔ Supergraph.Reaches S (S.view graph) n d := by
  obtain ⟨s₁, s, values, hdone⟩ := completed_of_solve hrun hcomplete
  obtain ⟨hsat, met, hs⟩ :=
    saturated_of_isPure (Coverage.bare S).isGrowthOrder hpure hwf.start_owned
    hdone.begun hdone.looped
  have hgraph := hs.graph_eq hpure
  rw [hdone.holdsFact_iff]
  constructor
  · intro h
    obtain ⟨source, w, hw⟩ := h
    have hder := hs.sound.jump hw
    rw [hgraph] at hder
    exact hder.reaches hwf hs.atStart
  · intro h
    obtain ⟨seed, hseed, ws, k, hpath⟩ := h
    rw [← hgraph] at hseed hpath
    have htraced := Supergraph.traced_of_path hwf hs hsat.stable
      (fun _ => trivial) (fun _ => ()) hseed hpath
    obtain ⟨_, source, w, _, _, _, hw, _⟩ := htraced.activation
    exact ⟨source, w, hw⟩

/-- A procedure that hands back its argument, called once with
a variable that was only declared and once with one that has a value. -/
def twoCalls : Draft := .ofSteps [
  .declare "main" [],
  .declare "same" ["p"],
  .write ⟨0⟩ (.decl "x"),
  .write ⟨0⟩ (.const "y" Word.one),
  .write ⟨0⟩ (.call (.direct ⟨1⟩) ["x"] (some "a")),
  .write ⟨0⟩ (.call (.direct ⟨1⟩) ["y"] (some "b")),
  .write ⟨0⟩ (.use "a"),
  .write ⟨1⟩ (.ret (some "p"))]

/-- The uninitialized variables of `twoCalls`. -/
def twoCallsSetup : Setup LocalFact BinaryEdge Binary where
  problem := (Uninitialized.problem twoCalls.build [⟨0⟩]).toProblem

/-- What the one call hands back does not reach the result of the
other. -/
theorem holdsFact_iff_reaches_twoCalls :
    ∃ r, (solve twoCallsSetup 100 twoCalls.build.graph).1 = .ok r ∧
      r.status = .complete ∧
      Supergraph.Reaches twoCallsSetup twoCalls.build.graph.icfg ⟨4⟩
        (.var "a") ∧
      ¬Supergraph.Reaches twoCallsSetup twoCalls.build.graph.icfg ⟨4⟩
        (.var "b") := by
  have hlaid : twoCalls.build.IsLaidOut :=
    Draft.isLaidOut_build (Draft.isNumbered_ofSteps _)
      (by unfold Draft.IsScoped; decide)
  have heval : (solve twoCallsSetup 100 twoCalls.build.graph).1.toOption.map
      (fun r => (r.status, r.holdsFact ⟨4⟩ (.var "a"),
      r.holdsFact ⟨4⟩ (.var "b"))) =
      some (.complete, .reachable, .unreachable) := by decide +kernel
  obtain ⟨r, hrun, hr⟩ := exists_ok_of_map heval
  simp only [Prod.mk.injEq] at hr
  obtain ⟨hcomplete, ha, hb⟩ := hr
  have hiff := holdsFact_iff_reaches hlaid.wellFormed (fun _ _ _ => rfl) hrun
    hcomplete ⟨4⟩
  refine ⟨r, hrun, hcomplete, (hiff _).mp ha, fun hreach => ?_⟩
  rw [(hiff _).mpr hreach] at hb
  cases hb

end Solver

end Tabulation
