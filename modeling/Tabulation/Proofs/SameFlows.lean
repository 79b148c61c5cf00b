/-
Setups with the same flows.

What the rules of tabulation ask of a setup is its edge functions, its
seeds and its flows (`SameFlows`). Settings like the order of the
worklist have no part in it, and neither has what a flow function asks
for while it is evaluated. So two such setups derive the same path
edges.
-/
import Tabulation.Proofs.Deduction
import Tabulation.Proofs.EffectiveFlow

namespace Tabulation

open Supergraph

variable {D W L : Type} [DecidableEq D]

namespace Setup

/-- What the rules ask of a setup is the same for both: codes, seeds,
and the targets of the four kinds of flows. -/
structure SameFlows (S T : Setup D W L) : Prop where
  functions : T.problem.functions = S.problem.functions
  seedsOn : T.seedsOn = S.seedsOn
  normalTargets : T.normalTargets = S.normalTargets
  callTargets : T.callTargets = S.callTargets
  returnTargets : T.returnTargets = S.returnTargets
  passTargets : T.passTargets = S.passTargets

/-- `T` has the flow functions of `S` and asks for nothing. Its
settings may differ, but for those that change a flow. -/
structure Replays (S T : Setup D W L) : Prop where
  problem : T.problem = { S.problem with requests := fun _ _ _ => [] }
  view : T.view = S.view
  autoAddZero : T.config.autoAddZero = S.config.autoAddZero

variable {S T : Setup D W L}

theorem SameFlows.symm (h : S.SameFlows T) : T.SameFlows S :=
  ⟨h.functions.symm, h.seedsOn.symm, h.normalTargets.symm, h.callTargets.symm,
    h.returnTargets.symm, h.passTargets.symm⟩

theorem SameFlows.identity (h : S.SameFlows T) : T.identity = S.identity := by
  unfold Setup.identity
  rw [h.functions]

theorem SameFlows.comp (h : S.SameFlows T) (f g : W) :
    T.comp f g = S.comp f g := by
  unfold Setup.comp
  rw [h.functions]

omit [DecidableEq D] in
theorem Replays.isPure (h : S.Replays T) : T.problem.IsPure := by
  intro k edge d
  rw [h.problem]

/-- Merging joins codes and nothing else. -/
theorem mergeTarget_congr (h : T.problem.functions = S.problem.functions)
    (ts : List (D × W)) (t : D × W) :
    T.mergeTarget ts t = S.mergeTarget ts t := by
  obtain ⟨d, w⟩ := t
  induction ts with
  | nil => rfl
  | cons t' rest ih =>
    obtain ⟨e, v⟩ := t'
    rw [mergeTarget_cons, mergeTarget_cons, ih, h]

/-- What an answer is taken to yield depends on the codes, on zero, and
on whether zero is added. -/
theorem Replays.effective (h : S.Replays T) (d : D) (answer : List (D × W)) :
    T.effective d answer = S.effective d answer := by
  have hzero : T.problem.zero = S.problem.zero := by rw [h.problem]
  have hfunctions : T.problem.functions = S.problem.functions := by
    rw [h.problem]
  have hidentity : T.identity = S.identity := by
    unfold Setup.identity
    rw [hfunctions]
  have hweight : T.targetWeight d = S.targetWeight d := by
    funext t
    obtain ⟨e, w⟩ := t
    unfold targetWeight
    rw [hzero, hidentity]
  have hmerge : T.mergeTarget = S.mergeTarget := by
    funext ts t
    exact mergeTarget_congr hfunctions ts t
  unfold Setup.effective
  rw [hzero, hidentity, hweight, hmerge, h.autoAddZero]

theorem Replays.targets (h : S.Replays T) (d : D)
    (answer : Except Fault (List (D × W))) :
    T.targets d answer = S.targets d answer := by
  cases answer with
  | ok answer => exact h.effective d answer
  | error fault => rfl

/-- So a setup that replays another has the same flows. -/
theorem Replays.sameFlows (h : S.Replays T) : S.SameFlows T where
  functions := by rw [h.problem]
  seedsOn := by
    funext I
    unfold Setup.seedsOn
    rw [h.problem]
  normalTargets := by
    funext n m d
    unfold Setup.normalTargets Setup.identity
    rw [h.problem]
    dsimp only
    split
    · exact h.effective d _
    · exact h.targets d _
    · rfl
  callTargets := by
    funext c g start d
    unfold Setup.callTargets
    rw [h.targets, h.problem]
  returnTargets := by
    funext c g x r d d'
    unfold Setup.returnTargets
    rw [h.targets, h.problem]
  passTargets := by
    funext c r d
    unfold Setup.passTargets
    rw [h.targets, h.problem]

end Setup

/-- The same rules derive the same path edges, whatever returns come
to. -/
theorem Supergraph.DerivableBy.transfer {S T : Setup D W L} (h : S.SameFlows T)
    {I : Icfg} {R : W → W → W → W → W → Prop} {e : PathEdge D} {f : W}
    (he : DerivableBy S I R e f) : DerivableBy T I R e f := by
  induction he with
  | seed hseed =>
    rw [← h.seedsOn] at hseed
    rw [← h.identity]
    exact .seed hseed
  | normal _ hcall hexit hsucc hw ih =>
    rw [← h.normalTargets] at hw
    rw [← h.comp]
    exact .normal ih hcall hexit hsucc hw
  | pass _ hcall hret hw ih =>
    rw [← h.passTargets] at hw
    rw [← h.comp]
    exact .pass ih hcall hret hw
  | entry _ henter hw ih =>
    rw [← h.callTargets] at hw
    rw [← h.identity]
    exact .entry ih henter hw
  | ret _ henter hw _ hleave hret hv hu ihf ihh =>
    rw [← h.callTargets] at hw
    rw [← h.returnTargets] at hv
    exact .ret ihf henter hw ihh hleave hret hv hu
  | join _ _ ihf ihg =>
    rw [← h.functions]
    exact .join ihf ihg

theorem Supergraph.Derivable.transfer {S T : Setup D W L} (h : S.SameFlows T)
    {I : Icfg} {e : PathEdge D} {f : W} (he : Derivable S I e f) :
    Derivable T I e f := by
  refine (DerivableBy.transfer h he).imp fun _ _ _ _ _ _ _ hu => ?_
  cases hu with
  | atCall =>
    simp only [← h.comp]
    exact .atCall
  | atExit =>
    simp only [← h.comp]
    exact .atExit

/-- Paths are the same too. -/
theorem Supergraph.Step.transfer {S T : Setup D W L} (h : S.SameFlows T)
    {I : Icfg} {a b : Place D} {w : W} (hstep : Step S I a w b) :
    Step T I a w b := by
  cases hstep with
  | normal hcall hexit hm hw =>
    rw [← h.normalTargets] at hw
    exact .normal hcall hexit hm hw
  | call hcall hg hstart hw =>
    rw [← h.callTargets] at hw
    exact .call hcall hg hstart hw
  | ret hcall hexit hproc hr hw =>
    rw [← h.returnTargets] at hw
    exact .ret hcall hexit hproc hr hw
  | pass hcall hr hw =>
    rw [← h.passTargets] at hw
    exact .pass hcall hr hw

theorem Supergraph.Path.transfer {S T : Setup D W L} (h : S.SameFlows T)
    {I : Icfg} {a b : Place D} {ws : List W} (hpath : Path S I a ws b) :
    Path T I a ws b := by
  induction hpath with
  | here => exact .here
  | snoc _ hstep ih => exact .snoc ih (hstep.transfer h)

end Tabulation
