/-
The rules behind the tables.

A path edge with a jump function is derivable if it follows by the
rules of tabulation: from a seed, along an edge inside a procedure,
past a call, into a callee, and back from one. The rules know nothing
of worklists, orders or tables. Whatever a run puts into its tables is
derivable (`Solver/Tables`), and what a finished run left is closed
under the rules (`Solver/Closure`); every statement about what a run
may hold is an induction over this relation.

# Two ways to compose a return

The effect of a callee is composed in two ways. A call that finds a
summary goes on from its own jump function, step by step; an exit that
finds a caller composes the way through the callee first. Composition
of codes need not be associative, so the two may come to different
codes, and either may be what a run has (`Setup.Returns`). The rules
leave open what a return may come to (`DerivableBy`), so that one can
also ask what follows by some of these compositions only.
-/
import Tabulation.Proofs.Growth
import Tabulation.Supergraph

namespace Tabulation

variable {D W L : Type} [DecidableEq D]

/-- What a return comes to, of the jump function of the caller, the
call, the summary and the return: composed one after the other from the
call, or first through the callee from the exit. -/
inductive Setup.Returns (S : Setup D W L) (f w h v : W) : W → Prop
  | atCall : Returns S f w h v (S.comp (S.comp (S.comp f w) h) v)
  | atExit : Returns S f w h v (S.comp f (S.comp (S.comp w h) v))

namespace Supergraph

/-- The path edges that follow by the rules, with their jump functions,
if a return comes to what `R` allows. -/
inductive DerivableBy (S : Setup D W L) (I : Icfg)
    (R : W → W → W → W → W → Prop) : PathEdge D → W → Prop
  | seed {seed : Seed D L} : seed ∈ S.seedsOn I →
      DerivableBy S I R ⟨seed.fact, seed.node, seed.fact⟩ S.identity
  | normal {d₁ d e : D} {n m : Node} {f w : W} :
      DerivableBy S I R ⟨d₁, n, d⟩ f → I.isCall n = false →
      I.isExit? n = some false → m ∈ I.successors n →
      (e, w) ∈ S.normalTargets n m d → DerivableBy S I R ⟨d₁, m, e⟩ (S.comp f w)
  | pass {d₁ d e : D} {c r : Node} {f w : W} :
      DerivableBy S I R ⟨d₁, c, d⟩ f → I.isCall c = true →
      I.returnSite? c = some r → (e, w) ∈ S.passTargets c r d →
      DerivableBy S I R ⟨d₁, r, e⟩ (S.comp f w)
  | entry {d₁ d e : D} {c s : Node} {g : Proc} {f w : W} :
      DerivableBy S I R ⟨d₁, c, d⟩ f → I.Enters c g s →
      (e, w) ∈ S.callTargets c g s d → DerivableBy S I R ⟨e, s, e⟩ S.identity
  | ret {d₁ d e d₂ t : D} {c s x r : Node} {g : Proc} {f w h v u : W} :
      DerivableBy S I R ⟨d₁, c, d⟩ f → I.Enters c g s →
      (e, w) ∈ S.callTargets c g s d → DerivableBy S I R ⟨e, x, d₂⟩ h →
      I.Leaves x g → I.returnSite? c = some r →
      (t, v) ∈ S.returnTargets c g x r d₂ d → R f w h v u →
      DerivableBy S I R ⟨d₁, r, t⟩ u
  | join {e : PathEdge D} {f g : W} :
      DerivableBy S I R e f → DerivableBy S I R e g →
      DerivableBy S I R e (S.problem.functions.join f g)

/-- The path edges that follow by the rules, with their jump functions. -/
abbrev Derivable (S : Setup D W L) (I : Icfg) : PathEdge D → W → Prop :=
  DerivableBy S I S.Returns

omit [DecidableEq D] in
/-- The seeds depend on where procedures start, and on nothing else of
the graph. -/
theorem seedsOn_congr (S : Setup D W L) {I J : Icfg} (h : J.start? = I.start?) :
    S.seedsOn J = S.seedsOn I := by
  unfold Setup.seedsOn
  rw [h]

/-- What follows by the rules still does so under another condition on
returns, if the returns that are made meet it. -/
theorem DerivableBy.imp {S : Setup D W L} {I : Icfg}
    {R R' : W → W → W → W → W → Prop}
    (hR : ∀ {d₁ d a d₂ t c start x r g f w h v u}, DerivableBy S I R ⟨d₁, c, d⟩
      f → I.Enters c g start → (a, w) ∈ S.callTargets c g start d →
      DerivableBy S I R ⟨a, x, d₂⟩ h → I.Leaves x g → I.returnSite? c = some r →
      (t, v) ∈ S.returnTargets c g x r d₂ d → R f w h v u → R' f w h v u)
    {e : PathEdge D} {f : W} (he : DerivableBy S I R e f) :
    DerivableBy S I R' e f := by
  induction he with
  | seed hseed => exact .seed hseed
  | normal _ hcall hexit hsucc hw ih => exact .normal ih hcall hexit hsucc hw
  | pass _ hcall hret hw ih => exact .pass ih hcall hret hw
  | entry _ henter hw ih => exact .entry ih henter hw
  | ret hf henter hw hh hleave hret hv hu ihf ihh =>
    exact .ret ihf henter hw ihh hleave hret hv
      (hR hf henter hw hh hleave hret hv hu)
  | join _ _ ihf ihg => exact .join ihf ihg

/-- What follows by the rules still does so when call sites get further
callees. -/
theorem DerivableBy.grow {S : Setup D W L} {I J : Icfg} (h : I.GrowsTo J)
    {R : W → W → W → W → W → Prop} {e : PathEdge D} {f : W}
    (he : DerivableBy S I R e f) : DerivableBy S J R e f := by
  induction he with
  | seed hseed => exact .seed (by rw [seedsOn_congr S h.start?]; exact hseed)
  | normal _ hcall hexit hsucc hw ih =>
    exact .normal ih (by rw [h.isCall]; exact hcall)
      (by rw [h.isExit?]; exact hexit) (by rw [h.successors]; exact hsucc) hw
  | pass _ hcall hret hw ih =>
    exact .pass ih (by rw [h.isCall]; exact hcall)
      (by rw [h.returnSite?]; exact hret) hw
  | entry _ henter hw ih => exact .entry ih (h.enters henter) hw
  | ret _ henter hw _ hleave hret hv hu ihf ihh =>
    exact .ret ihf (h.enters henter) hw ihh (h.leaves_iff.mpr hleave)
      (by rw [h.returnSite?]; exact hret) hv hu
  | join _ _ ihf ihg => exact .join ihf ihg

/-- What holds of the edge functions that flows carry, and is kept by
composition and joins, holds of all jump functions. -/
theorem Derivable.weight {S : Setup D W L} {I : Icfg} {Q : W → Prop}
    (hidentity : Q S.identity) (hcomp : ∀ {f g}, Q f → Q g → Q (S.comp f g))
    (hjoin : ∀ {f g}, Q f → Q g → Q (S.problem.functions.join f g))
    (hnormal : ∀ {n m d t}, t ∈ S.normalTargets n m d → Q t.2)
    (hcall : ∀ {c g st d t}, t ∈ S.callTargets c g st d → Q t.2)
    (hret : ∀ {c g x r d e t}, t ∈ S.returnTargets c g x r d e → Q t.2)
    (hpass : ∀ {c r d t}, t ∈ S.passTargets c r d → Q t.2) {e : PathEdge D}
    {f : W} (he : Derivable S I e f) : Q f := by
  induction he with
  | seed _ => exact hidentity
  | normal _ _ _ _ hw ih => exact hcomp ih (hnormal hw)
  | pass _ _ _ hw ih => exact hcomp ih (hpass hw)
  | entry _ _ _ _ => exact hidentity
  | ret _ _ hw _ _ _ hv hu ihf ihh =>
    cases hu with
    | atCall => exact hcomp (hcomp (hcomp ihf (hcall hw)) ihh) (hret hv)
    | atExit => exact hcomp ihf (hcomp (hcomp (hcall hw) ihh) (hret hv))
  | join _ _ ihf ihg => exact hjoin ihf ihg

end Supergraph

end Tabulation
