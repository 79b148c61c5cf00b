/-
Problems over linear functions.

Whatever its facts and flows are, a problem whose edge functions are
linear functions in normal form reports values of two kinds only: the
top, and the value that some path has when it is computed without a
range (`exact_resultAt`). A bottom may stand for no path at all.

# Lower and upper half

That every path is accounted for is coverage, with whole numbers of any
size as the quantity that paths act on (`IsLinear.coverage`).

That nothing else is reported is a matter of what values are made of. A
jump function rounds the effect of one of the paths it stands for: of
the two sides of a join one is left, or else the top function. So a
value that is not the top can be followed back, through jump functions
and calls, to a seed. The top has a path as well, since a constant
function makes a constant of it again (`Traceable`).
-/
import Tabulation.Proofs.EdgeFunction.Rounding
import Tabulation.Proofs.EffectiveFlow
import Tabulation.Proofs.JoinOverPaths

namespace Tabulation

open Supergraph LinearEdge

variable {D : Type}

/-- What holds of the edge functions that are answered, of the
identity, of compositions and of joins holds of all jump functions. -/
theorem Supergraph.Derivable.weight_of_answers [DecidableEq D] {W L : Type}
    {S : Setup D W L} {I : Icfg} {Q : W → Prop} (hidentity : Q S.identity)
    (hcomp : ∀ {f g}, Q f → Q g → Q (S.comp f g))
    (hjoin : ∀ {f g}, Q f → Q g → Q (S.problem.functions.join f g))
    (hanswers : ∀ {d answer}, S.Answers d answer → ∀ t ∈ answer, Q t.2)
    {e : PathEdge D} {f : W} (h : Derivable S I e f) : Q f := by
  have htaken : ∀ {d t}, (∃ answer, S.Answers d answer ∧
        t ∈ S.effective d answer) → Q t.2 := by
    rintro d t ⟨answer, hanswer, ht⟩
    exact Setup.weight_of_mem_effective hidentity hjoin (hanswers hanswer) t ht
  exact h.weight hidentity hcomp hjoin
    (fun ht => htaken (Setup.exists_answer_of_normalTargets ht))
    (fun ht => htaken (Setup.exists_answer_of_flow ht))
    (fun ht => htaken (Setup.exists_answer_of_returnTargets ht))
    (fun ht => htaken (Setup.exists_answer_of_flow ht))

/-- A problem over linear functions, which its flows answer in normal
form. -/
structure Setup.IsLinear (S : Setup D LinearEdge ConstValue) : Prop where
  functions : S.problem.functions = LinearEdge.functions
  lattice : S.problem.lattice = ConstValue.lattice
  flow : ∀ {edge d answer}, S.problem.flow edge d = .ok answer →
    ∀ t ∈ answer, t.2.IsNormal
  returnFlow : ∀ {edge d callFact answer}, S.problem.returnFlow edge d
    callFact = .ok answer → ∀ t ∈ answer, t.2.IsNormal

variable {S : Setup D LinearEdge ConstValue} {I : Icfg}

namespace Setup.IsLinear

variable (hS : S.IsLinear)

include hS

theorem identity_eq : S.identity = .identity := by
  unfold Setup.identity
  rw [hS.functions]
  rfl

theorem comp_eq (f g : LinearEdge) : S.comp f g = LinearEdge.comp f g := by
  unfold Setup.comp
  rw [hS.functions]
  rfl

theorem join_eq (f g : LinearEdge) :
    S.problem.functions.join f g = LinearEdge.join f g := by
  rw [hS.functions]
  rfl

theorem eval_eq (f : LinearEdge) (v : ConstValue) :
    S.problem.functions.eval f v = LinearEdge.eval f v := by
  rw [hS.functions]
  rfl

theorem isSemilattice : S.problem.lattice.IsSemilattice := by
  rw [hS.lattice]
  exact ConstValue.isSemilattice

/-- Answers are in normal form, whoever is asked. -/
theorem isNormal_of_answers {d : D} {answer : List (D × LinearEdge)}
    (h : S.Answers d answer) : ∀ t ∈ answer, t.2.IsNormal := by
  rcases h with rfl | ⟨_, h⟩ | ⟨_, _, h⟩
  · intro t ht
    rw [List.mem_singleton.mp ht, hS.identity_eq]
    exact trivial
  · exact hS.flow h
  · exact hS.returnFlow h

theorem isNormal_identity : S.identity.IsNormal := by
  rw [hS.identity_eq]
  exact trivial

theorem isNormal_join {f g : LinearEdge} (hf : f.IsNormal) (hg : g.IsNormal) :
    (S.problem.functions.join f g).IsNormal := by
  rw [hS.join_eq]
  exact LinearEdge.isNormal_join hf hg

variable [DecidableEq D]

/-- All jump functions are in normal form. -/
theorem isNormal_of_derivable {e : PathEdge D} {f : LinearEdge}
    (h : Derivable S I e f) : f.IsNormal := by
  refine h.weight_of_answers hS.isNormal_identity ?_ hS.isNormal_join
    hS.isNormal_of_answers
  intro f g hf hg
  rw [hS.comp_eq]
  exact isNormal_comp hf hg

/-- Paths cross edge functions in normal form only. -/
theorem isNormal_of_step {a b : Place D} {w : LinearEdge} (h : Step S I a w b) :
    w.IsNormal := by
  obtain ⟨answer, hanswer, hw⟩ := Setup.exists_answer_of_step h
  exact Setup.weight_of_mem_effective hS.isNormal_identity hS.isNormal_join
    (hS.isNormal_of_answers hanswer) _ hw

theorem isNormal_of_path {a b : Place D} {ws : List LinearEdge}
    (h : Path S I a ws b) : ∀ w ∈ ws, w.IsNormal := by
  induction h with
  | here => exact fun w hw => absurd hw List.not_mem_nil
  | snoc _ hstep ih =>
    intro w hw
    rcases List.mem_append.mp hw with hw | hw
    · exact ih w hw
    · rw [List.mem_singleton.mp hw]
      exact hS.isNormal_of_step hstep

-- ============================================================= high enough

omit hS in
/-- Whole numbers of any size as the quantity that paths act on. -/
def coverage (hS : S.IsLinear) : Coverage S ExactValue where
  act := evalExact
  Weight := IsNormal
  Covers := Dominates
  identity := by
    rw [hS.identity_eq]
    exact dominates_identity
  weight := dominates_evalExact
  comp := by
    intro f g φ ψ hf hg
    rw [hS.comp_eq]
    exact hf.comp hg
  join_left := by
    intro f g φ hf
    rw [hS.join_eq]
    exact hf.join_left g
  join_right := by
    intro f g φ hg
    rw [hS.join_eq]
    exact hg.join_right f

omit [DecidableEq D] in
/-- Values are measured by the exact values below them. Evaluation and
joins on words stay above, so what is covered stays measured. -/
theorem measures_coverage :
    hS.coverage.Measures fun a v => a.Below v.toExact where
  mono := by
    intro a v u hav hvu
    rw [hS.lattice] at hvu
    exact hav.trans (ConstValue.below_of_leq hvu)
  eval := by
    intro f φ a v hf hav
    rw [hS.eval_eq]
    exact hf.eval hav

-- =============================================================== low enough

omit [DecidableEq D] in
/-- A jump function may be read as rounding the effect of some path. A
composition rounds the effect of two paths put end to end; of a join,
one side is left. -/
theorem isSpanning_rounds : S.IsSpanning fun f P =>
    ∃ ws, P ws ∧ ((∀ w ∈ ws, w.IsNormal) → f.Rounds (evalExactAll ws)) where
  identity := by
    intro P hP
    rw [hS.identity_eq]
    exact ⟨[], hP, fun _ => rounds_identity⟩
  weight := by
    intro w P hP
    exact ⟨[w], hP, fun h => rounds_evalExact (h w List.mem_cons_self)⟩
  comp := by
    rintro f g P Q R ⟨ws, hws, hf⟩ ⟨vs, hvs, hg⟩ hR
    refine ⟨ws ++ vs, hR hws hvs, fun h => ?_⟩
    have hws' := hf fun w hw => h w (List.mem_append_left _ hw)
    have hvs' := hg fun w hw => h w (List.mem_append_right _ hw)
    rw [hS.comp_eq, funext (evalExactAll_append ws vs)]
    exact hws'.comp hvs'
  join := by
    rintro f g P ⟨ws, hws, hf⟩ ⟨vs, hvs, hg⟩
    rw [hS.join_eq]
    rcases join_cases f g with ⟨h, _⟩ | ⟨h, _⟩ | h
    · rw [h]
      exact ⟨ws, hws, hf⟩
    · rw [h]
      exact ⟨vs, hvs, hg⟩
    · rw [h]
      exact ⟨ws, hws, fun _ => rounds_allTop _⟩

end Setup.IsLinear

variable [DecidableEq D]

variable (S I) in
/-- A value without a range that some path gives a fact at a node. -/
def YieldsExact (n : Node) (d : D) (a : ExactValue) : Prop :=
  ∃ seed ∈ S.seedsOn I, ∃ ws k, Path S I ⟨seed.node, seed.fact, []⟩ ws
    ⟨n, d, k⟩ ∧ evalExactAll ws seed.value.toExact = a

variable (S I) in
/-- A path leads to a fact at a node, with this value or one that was
given up. In either case there is a path. -/
def Traceable (n : Node) (d : D) (v : ConstValue) : Prop :=
  ∃ a, YieldsExact S I n d a ∧ (v = .top ∨ v.toExact = a)

namespace YieldsExact

variable {n m c st : Node} {d e : D} {g : Proc} {a : ExactValue}
variable {w : LinearEdge}

/-- A path goes on inside its activation. -/
theorem sameLevel {ws : List LinearEdge} (h : YieldsExact S I n d a)
    (hws : SameLevel S I n d m e ws) :
    YieldsExact S I m e (evalExactAll ws a) := by
  obtain ⟨seed, hseed, us, k, hpath, rfl⟩ := h
  exact ⟨seed, hseed, us ++ ws, k, hpath.trans (hws k),
      evalExactAll_append us ws _⟩

/-- A path goes on into a callee. -/
theorem call (h : YieldsExact S I c d a) (henter : I.Enters c g st)
    (hw : (e, w) ∈ S.callTargets c g st d) :
    YieldsExact S I st e (w.evalExact a) := by
  obtain ⟨seed, hseed, us, k, hpath, rfl⟩ := h
  refine ⟨seed, hseed, us ++ [w], ⟨c, d⟩ :: k, hpath.snoc ?_,
      evalExactAll_append us [w] _⟩
  exact .call henter.isCall henter.callee henter.start hw

end YieldsExact

/-- A join of values that can be followed back is one of them, or was
given up. -/
theorem Traceable.join {n : Node} {d : D} {v u : ConstValue}
    (hv : Traceable S I n d v) (hu : Traceable S I n d u) :
    Traceable S I n d (ConstValue.join v u) := by
  rcases ConstValue.join_cases v u with h | h | h
  · rw [h]
    exact hv
  · rw [h]
    exact hu
  · obtain ⟨a, ha, _⟩ := hv
    exact ⟨a, ha, Or.inl h⟩

section Backing

variable {s : State D LinearEdge ConstValue} {I₀ : Icfg}

/-- The value phase hands on values that can be followed back to a
seed. -/
theorem Solver.Sound.isBacking_traceable (hs : Solver.Sound S I₀ s)
    (hS : S.IsLinear) (hwf : I₀.WellFormed) (hlists : I₀.ListsOwnCalls)
    (hseeds : ∀ seed ∈ S.seedsOn (S.view s.graph),
      (S.view s.graph).isStart? seed.node = some true)
    (hsame : s.seeds = S.seedsOn (S.view s.graph)) :
    Values.IsBacking S s (Traceable S (S.view s.graph)) := by
  refine hs.isBacking_of hlists hsame ?_ ?_ ?_ ?_
  · intro seed hseed
    exact ⟨seed.value.toExact, ⟨seed, hseed, [], [], .here, rfl⟩, Or.inr rfl⟩
  · intro n d v u hv hu
    rw [hS.lattice]
    exact hv.join hu
  · rintro c g st d e w v ⟨a, ha, hv⟩ henter hw
    have hnormal : w.IsNormal := hS.isNormal_of_step
      (Step.call (k := []) henter.isCall henter.callee henter.start hw)
    rw [hS.eval_eq]
    exact ⟨_, ha.call henter hw, (rounds_evalExact hnormal).eval hv⟩
  · rintro st n d e w v ⟨a, ha, hv⟩ hst hw
    obtain ⟨st', hst', ws, hws, hrounds⟩ :=
      hw.spans (hwf.grow hs.origin) hseeds hS.isSpanning_rounds
    obtain rfl := Option.some.inj (hst.symm.trans hst')
    rw [hS.eval_eq]
    exact ⟨_, ha.sameLevel hws,
        (hrounds (hS.isNormal_of_path (hws []))).eval hv⟩

end Backing

-- ============================================================== the reports

namespace Solver

variable {fuel : Nat} {graph : FlowGraph} {r : Results D ConstValue}

/-- A report that is neither extreme is what some path computes without
a range. -/
theorem exact_resultAt (hS : S.IsLinear) (hwf : (S.view graph).WellFormed)
    (hlists : (S.view graph).ListsOwnCalls) (hpure : S.problem.IsPure)
    (hvalues : S.config.computeValues = true)
    (hrun : (solve S fuel graph).1 = .ok r) (hcomplete : r.status = .complete)
    (n : Node) (d : D) :
    r.resultAt n d = .bottom ∨ r.resultAt n d = .top ∨
      YieldsExact S (S.view graph) n d (r.resultAt n d).toExact := by
  obtain ⟨s₁, s, values?, hdone⟩ := completed_of_solve hrun hcomplete
  obtain ⟨_, met, hs⟩ := saturated_of_isPure hS.coverage.isGrowthOrder hpure
    hwf.start_owned hdone.begun hdone.looped
  have hgraph := hs.graph_eq hpure
  have hbacking : Values.IsBacking S s (Traceable S (S.view s.graph)) := by
    apply hs.sound.isBacking_traceable hS hwf hlists
    · rw [hgraph]
      exact hs.atStart
    · rw [hgraph]
      exact hs.seeds_eq
  obtain ⟨settled, values, rfl, hcomputed⟩ :=
    hdone.computed hvalues hS.isSemilattice.isJoinOrder hbacking
  rcases hdone.resultAt_backed hcomputed n d with h | ⟨a, ha, htop | hexact⟩
  · rw [hS.lattice] at h
    exact Or.inl h
  · exact Or.inr (Or.inl htop)
  · rw [hexact, ← hgraph]
    exact Or.inr (Or.inr ha)

/-- No path computes, without a range, a value that the report is not
above. -/
theorem below_resultAt (hS : S.IsLinear) (hwf : (S.view graph).WellFormed)
    (hpure : S.problem.IsPure) (hvalues : S.config.computeValues = true)
    (hrun : (solve S fuel graph).1 = .ok r) (hcomplete : r.status = .complete)
    {n : Node} {d : D} {a : ExactValue}
    (ha : YieldsExact S (S.view graph) n d a) :
    a.Below (r.resultAt n d).toExact := by
  obtain ⟨seed, hseed, ws, k, hpath, rfl⟩ := ha
  exact bounds_resultAt hS.measures_coverage hwf hpure hS.isSemilattice hvalues
    hrun hcomplete hS.isNormal_of_step (fun seed => seed.value.toExact)
    (fun seed _ => .refl _) hseed hpath

end Solver

end Tabulation
