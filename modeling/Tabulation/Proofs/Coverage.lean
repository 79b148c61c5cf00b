/-
Stable tables account for every path.

A path leads from a seed through calls, some of which are still open at
its end. Where it stands, the tables have a path edge for each
activation on the way: from the fact with which the activation was
entered to the fact at the open call, and in the innermost one to the
fact where the path stands (`Traced`). One step along an edge keeps
this up, because the tables are closed under the rules; a return drops
the innermost activation and goes on with the path edge of its caller.

# Effects

Beside the facts a path has an effect: what its edge functions do, one
after another, to some quantity. A `Coverage` fixes the quantity, what
an edge function does to it (`act`), and when a code accounts for an
effect (`Covers`). Then the path edge of each activation accounts for
the effect of the path inside that activation. Nothing is lost by the
way in which codes are composed and joined.

Three coverages are used: none at all for reachability, values
themselves for distributive problems, and whole numbers without a range
for constants.
-/
import Tabulation.Proofs.Paths
import Tabulation.Proofs.Solver.Outcome

namespace Tabulation

variable {D W L : Type} [DecidableEq D]

/-- A quantity that paths act on, and when a code accounts for an
effect on it. The laws say that identity, composition and joins of
codes keep account of what they should. -/
structure Coverage (S : Setup D W L) (A : Type) where
  /-- What an edge function does. -/
  act : W → A → A
  /-- The edge functions that are looked at. -/
  Weight : W → Prop
  /-- A code accounts for an effect. -/
  Covers : W → (A → A) → Prop
  identity : Covers S.identity fun a => a
  weight : ∀ {w}, Weight w → Covers w (act w)
  comp : ∀ {f g φ ψ}, Covers f φ → Covers g ψ →
    Covers (S.comp f g) fun a => ψ (φ a)
  join_left : ∀ {f g φ}, Covers f φ → Covers (S.problem.functions.join f g) φ
  join_right : ∀ {f g φ}, Covers g φ → Covers (S.problem.functions.join f g) φ

namespace Coverage

variable {S : Setup D W L} {A : Type} (C : Coverage S A)

/-- What a sequence of edge functions does, one after another. -/
def actAll (ws : List W) (a : A) : A := ws.foldl (fun a w => C.act w a) a

/-- A code accounts for all that another one accounts for. This is the
order in which jump functions grow, for the purpose at hand. -/
def le (f g : W) : Prop := ∀ φ, C.Covers f φ → C.Covers g φ

omit [DecidableEq D] in
/-- Joins account for what both sides do, so jump functions grow in
this order. -/
theorem isGrowthOrder [DecidableEq L] : S.IsGrowthOrder C.le where
  refl := fun _ _ h => h
  trans := fun h h' φ hφ => h' φ (h φ hφ)
  join_above := fun _ => ⟨fun _ h => C.join_left h, fun _ h => C.join_right h⟩

end Coverage

namespace Supergraph

open Solver

variable {S : Setup D W L} {A : Type} {C : Coverage S A} {init : Seed D L → A}
variable {I : Icfg} {s : State D W L}

variable (C I s init) in
/-- The tables account for a place that a path has come to, and for
what the path made of the quantity it began with. -/
inductive Traced : Place D → A → Prop
  /-- In an activation that no call of the path has opened. -/
  | seeded {seed : Seed D L} {n : Node} {d : D} {f : W} {φ : A → A} :
      seed ∈ S.seedsOn I → I.startOf? n = some seed.node →
      s.jump? ⟨seed.fact, n, d⟩ = some f → C.Covers f φ →
        Traced ⟨n, d, []⟩ (φ (init seed))
  /-- In an activation that the innermost open call has opened. -/
  | called {c st n : Node} {g : Proc} {dc e d : D} {w f : W} {φ : A → A}
      {k : List (Frame D)} {a : A} : Traced ⟨c, dc, k⟩ a → I.Enters c g st →
      C.Weight w →
      (e, w) ∈ S.callTargets c g st dc → I.procOf? n = some g →
      s.jump? ⟨e, n, d⟩ = some f → C.Covers f φ →
      Traced ⟨n, d, ⟨c, dc⟩ :: k⟩ (φ (C.act w a))

/-- The innermost activation has a path edge, and any other path edge
from the same entry would do as well. -/
theorem Traced.activation {n : Node} {d : D} {k : List (Frame D)} {a : A}
    (h : Traced C init I s ⟨n, d, k⟩ a) :
    ∃ p d₁ f φ a₁, I.procOf? n = some p ∧ s.jump? ⟨d₁, n, d⟩ = some f ∧
      C.Covers f φ ∧ a = φ a₁ ∧ ∀ {m e f' φ'}, I.procOf? m = some p →
      s.jump? ⟨d₁, m, e⟩ = some f' → C.Covers f' φ' →
      Traced C init I s ⟨m, e, k⟩ (φ' a₁) := by
  cases h with
  | @seeded seed _ _ f φ hseed hst hf hφ =>
    obtain ⟨p, hp, hstart⟩ := Icfg.startOf?_eq_some.mp hst
    refine ⟨p, seed.fact, f, φ, init seed, hp, hf, hφ, rfl,
        fun hm hf' hφ' => ?_⟩
    exact .seeded hseed (Icfg.startOf?_eq_some.mpr ⟨p, hm, hstart⟩) hf' hφ'
  | @called c st _ g dc e _ w f φ k a hcaller henter hweight hw hp hf hφ =>
    exact ⟨g, e, f, φ, C.act w a, hp, hf, hφ, rfl,
      fun hm hf' hφ' => .called hcaller henter hweight hw hm hf' hφ'⟩

/-- A path edge that is on record at least with some function accounts
for what that function accounts for. -/
private theorem exists_covers {e : PathEdge D} {w : W} {φ : A → A}
    (h : AtLeast C.le s e w) (hφ : C.Covers w φ) :
    ∃ f, s.jump? e = some f ∧ C.Covers f φ := by
  obtain ⟨f, hf, hle⟩ := h
  exact ⟨f, hf, hle φ hφ⟩

/-- One step of a path is accounted for. A step inside a procedure goes
on with the path edge of its activation, a call opens an activation at
the entry that the tables have, and a return goes on with the path edge
of the caller. -/
theorem Traced.step (hwf : (S.view s.graph).WellFormed) (hs : Stable S C.le s)
    {p q : Place D} {w : W} {a : A} (h : Traced C init (S.view s.graph) s p a)
    (hstep : Step S (S.view s.graph) p w q) (hw : C.Weight w) :
    Traced C init (S.view s.graph) s q (C.act w a) := by
  cases hstep with
  | normal hcall hexit hm ht =>
    obtain ⟨p, d₁, f, φ, a₁, hp, hf, hφ, rfl, hother⟩ := h.activation
    have hnext := hs.normal hf hcall hexit hm ht
    obtain ⟨f', hf', hφ'⟩ := exists_covers hnext (C.comp hφ (C.weight hw))
    exact hother (hwf.successor_owned hp hm) hf' hφ'
  | pass hcall hr ht =>
    obtain ⟨p, d₁, f, φ, a₁, hp, hf, hφ, rfl, hother⟩ := h.activation
    have hnext := hs.pass hf hcall hr ht
    obtain ⟨f', hf', hφ'⟩ := exists_covers hnext (C.comp hφ (C.weight hw))
    exact hother (hwf.returnSite_owned hp hr) hf' hφ'
  | call hcall hg hst ht =>
    obtain ⟨p, d₁, f, φ, a₁, hp, hf, hφ, rfl, hother⟩ := h.activation
    have henter : (S.view s.graph).Enters _ _ _ := ⟨hcall, hg, hst⟩
    obtain ⟨f', hf', hφ'⟩ := exists_covers (hs.entry hf henter ht) C.identity
    exact .called h henter hw ht (hwf.start_owned hst) hf' hφ'
  | @ret x c r g d e w callFact k hcall hexit hproc hr ht =>
    -- the place is inside the innermost open call; its caller has a path edge
    -- of its own
    cases h with
    | @called _ _ _ _ _ _ _ v h χ _ a hcaller henter hweight hentry hp hh hχ =>
      obtain rfl := Option.some.inj (hproc.symm.trans hp)
      obtain ⟨p', d₁, f, φ, a₁, hp', hf, hφ, rfl, hother⟩ := hcaller.activation
      have hreturned := hs.returned hf hh henter hentry
        ⟨hcall, hexit, hproc⟩ hr ht
      have hin := C.weight hweight
      have hback : ∃ f', s.jump? ⟨d₁, r, e⟩ = some f' ∧
          C.Covers f' fun a => C.act w (χ (C.act v (φ a))) := by
        rcases hreturned with hnext | hnext
        · have hwhole := C.comp (C.comp (C.comp hφ hin) hχ) (C.weight hw)
          exact exists_covers hnext hwhole
        · have hwhole := C.comp hφ (C.comp (C.comp hin hχ) (C.weight hw))
          exact exists_covers hnext hwhole
      obtain ⟨f', hf', hφ'⟩ := hback
      exact hother (hwf.returnSite_owned hp' hr) hf' hφ'

/-- Finished tables account for every path from a seed, by induction on
the path. -/
theorem traced_of_path {graph : FlowGraph} {met : PathEdge D → Proc → Prop}
    (hwf : (S.view graph).WellFormed) (hs : Finished S C.le graph met s)
    (hstable : Stable S C.le s)
    (hweights : ∀ {a w b}, Step S (S.view s.graph) a w b → C.Weight w)
    (init : Seed D L → A) {seed : Seed D L}
    (hseed : seed ∈ S.seedsOn (S.view s.graph)) {ws : List W} {q : Place D}
    (hpath : Path S (S.view s.graph) ⟨seed.node, seed.fact, []⟩ ws q) :
    Traced C init (S.view s.graph) s q (C.actAll ws (init seed)) := by
  have horigin := hs.sound.origin
  induction hpath with
  | here =>
    have hseed₀ := hseed
    rw [seedsOn_congr S horigin.start?] at hseed₀
    have hstart := hs.atStart seed hseed₀
    rw [← horigin.isStart?] at hstart
    obtain ⟨f, hf, hφ⟩ := exists_covers (hs.present seed hseed₀) C.identity
    exact .seeded hseed (Icfg.startOf?_of_isStart? hstart) hf hφ
  | @snoc ws w b c _ hstep ih =>
    unfold Coverage.actAll at ih ⊢
    rw [List.foldl_append]
    exact ih.step (hwf.grow horigin) hstable hstep (hweights hstep)

end Supergraph

end Tabulation
