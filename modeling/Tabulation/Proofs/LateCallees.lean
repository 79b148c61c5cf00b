/-
Call targets that become known while a run is under way.

A flow function may ask for a further target of a call site at any
time. The loop meets the callees of a site whenever it follows a path
edge there, and once nothing is pending it looks for callees that it
does not know yet. What it knows, it knows of a site and not of a path
edge. So a path edge that was followed before a target was asked for is
queued again only if no other path edge of its site has met that target
in the meantime.

# What is missed

A complete run may therefore miss callees. `Missed` says which, by the
trace of the loop, and `Redundant` says when that does not show in the
path edges.

# What follows

The measure of such a run is a second one, of the same flow functions,
that asks for nothing and begins with the call graph the first one
ended with (`Replays`). The first run never records more than the
second. It records the same path edges if and only if all that it
missed is redundant, and then it gives the same answers
(`recorded_agree_iff_missed_redundant`). Below it stands a program on
which a fact is lost.
-/
import Tabulation.Analysis.Uninitialized
import Tabulation.Problem.Variation
import Tabulation.Proofs.Program.Layout
import Tabulation.Proofs.SameFlows
import Tabulation.Proofs.Solver.Outcome

namespace Tabulation

open Supergraph

variable {D W L : Type} [DecidableEq D]

-- ========================================================= what is missed

namespace Solver

section Vocabulary

variable [DecidableEq W] [DecidableEq L] (S : Setup D W L)

/-- In the end `g` is a callee of the site of `e`, but it was none at
any visit of `e` between `s₁`, where the loop begins, and `s`. -/
structure Missed (fuel : Nat) (s₁ s : State D W L) (e : PathEdge D) (g : Proc) :
    Prop where
  recorded : Recorded s e
  isCall : (S.view s.graph).isCall e.node = true
  callee : g ∈ (S.view s.graph).callees e.node
  unmet : ¬Meets S fuel s₁ e g

/-- All that `e` would bring into `g`, and back from it, is on record. -/
structure Redundant (s : State D W L) (e : PathEdge D) (g : Proc) : Prop where
  entry : ∀ {start t}, (S.view s.graph).start? g = some start →
    t ∈ S.callTargets e.node g start e.target → Recorded s ⟨t.1, start, t.1⟩
  back : ∀ {start x w r u}, (S.view s.graph).start? g = some start →
    Recorded s x → (x.source, w) ∈ S.callTargets e.node g start e.target →
    (S.view s.graph).Leaves x.node g →
    (S.view s.graph).returnSite? e.node = some r →
    u ∈ S.returnTargets e.node g x.node r x.target e.target →
      Recorded s ⟨e.source, r, u.1⟩

end Vocabulary

variable {S T : Setup D W L} {fuel fuel' : Nat} {graph : FlowGraph}
variable {r r' : Results D L}
variable {s s₁ : State D W L}

/-- If what was not met is redundant, the path edges are closed under
the rules. Of the callees, those that were met are dealt with by the
run itself. -/
private theorem stable_of_redundant {met : PathEdge D → Proc → Prop}
    (hs : Finished S (fun _ _ => True) graph met s)
    (hred : ∀ e g, Recorded s e → (S.view s.graph).isCall e.node = true →
      g ∈ (S.view s.graph).callees e.node → ¬met e g → Redundant S s e g) :
    Stable S (fun _ _ => True) s where
  normal := fun hf hcall hexit hm ht => (hs.closed.followed hf id).normal hcall
    hexit _ hm _ ht
  pass := fun hf hcall hr ht => (hs.closed.followed hf id).pass hcall hr _ ht
  entry := by
    intro e f g start t hf henter ht
    by_cases hmet : met e g
    · exact ((hs.closed.followed hf id).entry henter.isCall hmet
          henter.start _ ht).1
    · exact ((hred e g ⟨f, hf⟩ henter.isCall henter.callee hmet).entry
          henter.start ht).atLeast _
  returned := by
    intro e f x h g start r w u hf hh henter hw hleave hr hu
    by_cases hmet : met e g
    · exact hs.closed.returned hf hh id id henter.isCall hmet henter.start hw
        hleave hr _ hu
    · have hback := hred e g ⟨f, hf⟩ henter.isCall henter.callee hmet
      exact Or.inl ((hback.back henter.start ⟨h, hh⟩ hw hleave hr hu).atLeast _)

/-- Where the path edges are closed under the rules, nothing that was
missed matters. -/
theorem Stable.redundant {le : W → W → Prop} (hs : Stable S le s)
    {e : PathEdge D} {g : Proc} (he : Recorded s e)
    (hcall : (S.view s.graph).isCall e.node = true)
    (hg : g ∈ (S.view s.graph).callees e.node) : Redundant S s e g := by
  obtain ⟨f, hf⟩ := he
  constructor
  · intro start t hstart ht
    exact (hs.entry hf ⟨hcall, hg, hstart⟩ ht).recorded
  · intro start x w r u hstart hx hw hleave hr hu
    obtain ⟨h, hh⟩ := hx
    rcases hs.returned hf hh ⟨hcall, hg, hstart⟩ hw hleave hr hu
      with hback | hback
    · exact hback.recorded
    · exact hback.recorded

-- ============================================================ two runs

/-- `s` ends a run with `S`, and `s'` one of the same flow functions
that began with the call graph of `s`. -/
structure Replayed (S T : Setup D W L) (graph : FlowGraph)
    (met : PathEdge D → Proc → Prop) (s s' : State D W L) : Prop where
  finished : Finished S (fun _ _ => True) graph met s
  flows : S.SameFlows T
  view : T.view s'.graph = S.view s.graph
  derivable : ∀ {e f}, s'.jump? e = some f → Derivable T (T.view s'.graph) e f
  stable : Stable T (fun _ _ => True) s'
  seeded : ∀ seed ∈ T.seedsOn (T.view s'.graph),
    Recorded s' ⟨seed.fact, seed.node, seed.fact⟩

namespace Replayed

variable {met : PathEdge D → Proc → Prop} {s' : State D W L} {e : PathEdge D}

/-- The second run derives what the first one does. It has all the
callees from the start that the first one came to have. -/
theorem recorded (h : Replayed S T graph met s s') (he : Recorded s e) :
    Recorded s' e := by
  obtain ⟨f, hf⟩ := he
  have hder := (h.finished.sound.jump hf).transfer h.flows
  rw [← h.view] at hder
  exact recorded_of_derivable h.stable h.seeded hder

/-- If nothing is missed but what is redundant, the first run derives
what the second one does. -/
theorem recorded_iff (h : Replayed S T graph met s s')
    (hred : ∀ e g, Recorded s e → (S.view s.graph).isCall e.node = true →
      g ∈ (S.view s.graph).callees e.node → ¬met e g → Redundant S s e g)
    (e : PathEdge D) : Recorded s e ↔ Recorded s' e := by
  refine ⟨h.recorded, fun he => ?_⟩
  obtain ⟨f, hf⟩ := he
  have hder := (h.derivable hf).transfer h.flows.symm
  rw [h.view] at hder
  refine recorded_of_derivable (stable_of_redundant h.finished hred)
    (fun seed hseed => ?_) hder
  rw [seedsOn_congr S h.finished.sound.origin.start?] at hseed
  exact (h.finished.present seed hseed).recorded

/-- If both derive the same, nothing matters that the first one missed. -/
theorem redundant (h : Replayed S T graph met s s')
    (hsame : ∀ e, Recorded s e ↔ Recorded s' e) {g : Proc} (he : Recorded s e)
    (hcall : (S.view s.graph).isCall e.node = true)
    (hg : g ∈ (S.view s.graph).callees e.node) : Redundant S s e g := by
  rw [← h.view] at hcall hg
  obtain ⟨hentry, hback⟩ := h.stable.redundant (h.recorded he) hcall hg
  rw [h.view, h.flows.callTargets] at hentry hback
  rw [h.flows.returnTargets] at hback
  simp only [← hsame] at hentry hback
  exact ⟨hentry, hback⟩

end Replayed

variable [DecidableEq W] [DecidableEq L]

/-- Two complete runs, the second on the graph that the first has left,
are so related. -/
private theorem replayed_of_completed (hsteady : S.IsSteady)
    (hwf : (S.view graph).WellFormed) (hT : S.Replays T) {s₁' s' : State D W L}
    {values values' : Option (Grid Node D L)}
    (hdone : Completed S fuel graph r s₁ s values)
    (hdone' : Completed T fuel' s.graph r' s₁' s' values') :
    Replayed S T graph (Meets S fuel s₁) s s' := by
  have hs := finished_of_tabulate isGrowthOrder_trivial hsteady hwf.start_owned
    (fun _ _ => False) hdone.begun (fun h => absurd h id) hdone.looped
  simp only [false_or] at hs
  have hown' : ∀ {p : Proc} {n : Node}, (T.view s.graph).start? p = some n →
      (T.view s.graph).procOf? n = some p := by
    rw [hT.view, hs.sound.origin.start?, hs.sound.origin.procOf?]
    exact hwf.start_owned
  obtain ⟨hsat', _, hs'⟩ :=
    saturated_of_isPure isGrowthOrder_trivial hT.isPure hown' hdone'.begun
      hdone'.looped
  have hgraph' := hs'.graph_eq hT.isPure
  refine ⟨hs, hT.sameFlows, ?_, hs'.sound.jump, hsat'.stable,
      fun seed hseed => ?_⟩
  · rw [hgraph', hT.view]
  · rw [hgraph'] at hseed
    exact (hs'.present seed hseed).recorded

/-- A run that discovers call targets on the fly, against one that
knows them from the start. The first answers no more than the second.
What it missed, another path edge of the site has met; the facts at the
starts of callees are complete if and only if those of the missed ones
are there; and the path edges are those of the second run if and only
if all that was missed is redundant, in which case the answers agree. -/
theorem recorded_agree_iff_missed_redundant (hsteady : S.IsSteady)
    (hwf : (S.view graph).WellFormed) (hT : S.Replays T)
    (hrun : (solve S fuel graph).1 = .ok r) (hcomplete : r.status = .complete)
    (hrun' : (solve T fuel' (solve S fuel graph).2).1 = .ok r')
    (hcomplete' : r'.status = .complete) :
    ∃ s₁ s values s₁' s' values', Completed S fuel graph r s₁ s values ∧
      Completed T fuel' s.graph r' s₁' s' values' ∧
      (∀ n d, r.holdsFact n d = .reachable → r'.holdsFact n d = .reachable) ∧
      (∀ e g, Missed S fuel s₁ s e g → ∃ e', e'.node = e.node ∧
        Meets S fuel s₁ e' g) ∧
      ((∀ e g start t, Recorded s e → (S.view s.graph).Enters e.node g start →
        t ∈ S.callTargets e.node g start e.target →
        r.holdsFact start t.1 = .reachable) ↔
        ∀ e g start t, Missed S fuel s₁ s e g →
        (S.view s.graph).start? g = some start →
        t ∈ S.callTargets e.node g start e.target →
        r.holdsFact start t.1 = .reachable) ∧
      ((∀ e, Recorded s e ↔ Recorded s' e) ↔
        ∀ e g, Missed S fuel s₁ s e g → Redundant S s e g) ∧
      ((∀ e g, Missed S fuel s₁ s e g → Redundant S s e g) →
        ∀ n d, r.holdsFact n d = r'.holdsFact n d) := by
  obtain ⟨s₁, s, values, hdone⟩ := completed_of_solve hrun hcomplete
  rw [hdone.graph_eq] at hrun'
  obtain ⟨s₁', s', values', hdone'⟩ := completed_of_solve hrun' hcomplete'
  have hruns := replayed_of_completed hsteady hwf hT hdone hdone'
  have hs := hruns.finished
  -- what is on record and what is redundant, one from the other
  have hgive : (∀ e g, Missed S fuel s₁ s e g → Redundant S s e g) →
      ∀ e, Recorded s e ↔ Recorded s' e :=
    fun hred => hruns.recorded_iff fun e g he hcall hg hmet =>
      hred e g ⟨he, hcall, hg, hmet⟩
  have htake : (∀ e, Recorded s e ↔ Recorded s' e) →
      ∀ e g, Missed S fuel s₁ s e g → Redundant S s e g :=
    fun hsame e g hmissed =>
      hruns.redundant hsame hmissed.recorded hmissed.isCall hmissed.callee
  have hanswers : (∀ e, Recorded s e ↔ Recorded s' e) →
      ∀ n d, r.holdsFact n d = r'.holdsFact n d := by
    intro hsame n d
    refine Results.holdsFact_congr hcomplete hcomplete' ?_
    rw [hdone.holdsFact_iff, hdone'.holdsFact_iff]
    exact exists_congr fun source => hsame ⟨source, n, d⟩
  refine ⟨s₁, s, values, s₁', s', values', hdone, hdone', ?_, ?_, ?_,
    ⟨htake, hgive⟩, fun hred => hanswers (hgive hred)⟩
  · intro n d h
    rw [hdone'.holdsFact_iff]
    obtain ⟨source, hw⟩ := (hdone.holdsFact_iff n d).mp h
    exact ⟨source, hruns.recorded hw⟩
  · intro e g hmissed
    obtain ⟨w, hw⟩ := hmissed.recorded
    exact hs.exists_met hw hmissed.isCall hmissed.callee
  · constructor
    · intro h e g start t hmissed hstart ht
      exact h e g start t hmissed.recorded
        ⟨hmissed.isCall, hmissed.callee, hstart⟩ ht
    · intro h e g start t he henter ht
      by_cases hmet : Meets S fuel s₁ e g
      -- a callee that was met has been entered by the run itself, so
      -- only those that were missed are left to ask about
      · obtain ⟨f, hf⟩ := he
        have hentry := (hs.closed.followed hf id).entry henter.isCall hmet
          henter.start t ht
        exact (hdone.holdsFact_iff start t.1).mpr ⟨t.1, hentry.1.recorded⟩
      · exact h e g start t ⟨he, henter.isCall, henter.callee, hmet⟩
          henter.start ht

/-- A procedure whose first statement leads past a declaration to a
call, or to that call at once. The target of the call comes up when the
declaration is passed. -/
def lateTarget : Draft := .ofSteps [
  .declare "main" [],
  .declare "target" ["p"],
  .write ⟨0⟩ .nop,
  .write ⟨0⟩ .nop,
  .write ⟨0⟩ (.decl "x"),
  .write ⟨0⟩ (.call .indirect ["x"] none),
  .write ⟨1⟩ (.use "p"),
  .branch ⟨0⟩ ⟨0⟩ ⟨3⟩]

/-- The uninitialized variables of `lateTarget`, with its target asked
for on the way. -/
def lateTargetSetup : Setup LocalFact BinaryEdge Binary where
  problem := (Uninitialized.problem lateTarget.build
    [⟨0⟩]).toProblem.withTriggers [⟨⟨2⟩, .resolve ⟨3⟩ ⟨1⟩⟩]

/-- The same with nothing asked for. -/
def lateTargetReplay : Setup LocalFact BinaryEdge Binary where
  problem := { lateTargetSetup.problem with requests := fun _ _ _ => [] }

/-- Zero comes to the call before its target is known, and misses it.
The variable that was declared comes later and meets the target, so the
site is not looked at again, and the target is taken to be unreachable
from zero. -/
theorem recorded_agree_iff_missed_redundant_lateTarget :
    ∃ r r' s₁ s values,
      (solve lateTargetSetup 100 lateTarget.build.graph).1 = .ok r ∧
      (solve lateTargetReplay 100
        (solve lateTargetSetup 100 lateTarget.build.graph).2).1 = .ok r' ∧
      r.status = .complete ∧ r.holdsFact ⟨4⟩ .zero = .unreachable ∧
      r'.status = .complete ∧ r'.holdsFact ⟨4⟩ .zero = .reachable ∧
      Completed lateTargetSetup 100 lateTarget.build.graph r s₁ s values ∧
      ∃ e g, Missed lateTargetSetup 100 s₁ s e g ∧
        ¬Redundant lateTargetSetup s e g := by
  have hlaid : lateTarget.build.IsLaidOut :=
    Draft.isLaidOut_build (Draft.isNumbered_ofSteps _)
      (by unfold Draft.IsScoped; decide)
  have heval : (solve lateTargetSetup 100 lateTarget.build.graph).1.toOption.map
      (fun r => (r.status, r.holdsFact ⟨4⟩ .zero)) =
      some (.complete, .unreachable) := by
    decide +kernel
  have heval' : (solve lateTargetReplay 100
      (solve lateTargetSetup 100 lateTarget.build.graph).2).1.toOption.map
      (fun r => (r.status, r.holdsFact ⟨4⟩ .zero)) =
        some (.complete, .reachable) := by
    decide +kernel
  obtain ⟨r, hrun, hr⟩ := exists_ok_of_map heval
  obtain ⟨r', hrun', hr'⟩ := exists_ok_of_map heval'
  simp only [Prod.mk.injEq] at hr hr'
  have hreplays : lateTargetSetup.Replays lateTargetReplay := ⟨rfl, rfl, rfl⟩
  obtain ⟨s₁, s, values, s₁', s', values', hdone, _, _, _, _, _, hagree⟩ :=
    recorded_agree_iff_missed_redundant (Setup.isSteady_of_view_eq rfl)
    hlaid.wellFormed hreplays hrun hr.1 hrun' hr'.1
  refine ⟨r, r', s₁, s, values, hrun, hrun', hr.1, hr.2, hr'.1,
      hr'.2, hdone, ?_⟩
  by_contra hnone
  have hred : ∀ e g, Missed lateTargetSetup 100 s₁ s e g →
      Redundant lateTargetSetup s e g := by
    intro e g hmissed
    by_contra hnot
    exact hnone ⟨e, g, hmissed, hnot⟩
  have heq := hagree hred ⟨4⟩ .zero
  rw [hr.2, hr'.2] at heq
  cases heq

end Solver

end Tabulation
