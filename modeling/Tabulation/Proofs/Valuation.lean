/-
Values account for every path.

Where tables account for a path (`Traced`), each activation on it has a
path edge, and so the value phase carries what the path made of its
quantity along: from the seed, or from the call that was entered, to
the start of the activation, and from there by the path edge. The
quantity and the values need not be of one kind. A relation between
them is all that is asked for, which codes carry from their source to
their target and which holds of higher values too
(`Coverage.Measures`).
-/
import Tabulation.Proofs.Coverage
import Tabulation.Proofs.Solver.Values

namespace Tabulation

variable {D W L : Type} [DecidableEq D] [DecidableEq L] {S : Setup D W L}
variable {A : Type}

/-- A relation between quantities and the values that account for them.
It is carried along by codes that account for an effect, and upwards to
larger values. -/
structure Coverage.Measures (C : Coverage S A) (Bounds : A → L → Prop) :
    Prop where
  mono : ∀ {a v u}, Bounds a v → S.problem.lattice.leq v u = true → Bounds a u
  eval : ∀ {f φ a v}, C.Covers f φ → Bounds a v →
    Bounds (φ a) (S.problem.functions.eval f v)

namespace Supergraph

open Solver Values

variable {C : Coverage S A} {Bounds : A → L → Prop} {init : Seed D L → A}
variable {s : State D W L} {P : Node → D → L → Prop}
variable {settled values : Grid Node D L}

/-- A value above one that accounts for a quantity accounts for it. -/
private theorem exists_bounds (hC : C.Measures Bounds) {n : Node} {d : D}
    {a : A} {v : L} (h : Above S.Below values n d v) (hv : Bounds a v) :
    ∃ u, values.get? n d = some u ∧ Bounds a u := by
  obtain ⟨u, hu, hle⟩ := h
  exact ⟨u, hu, hC.mono hv hle⟩

/-- The innermost activation of a path has a value at its start that
accounts for what the path had brought there. By induction on the
activations, from the seed inwards. -/
theorem Traced.exists_settled (hC : C.Measures Bounds)
    (hwf : (S.view s.graph).WellFormed) (hsat : Saturated S C.le s)
    (hcomputed : Computed S s S.Below P settled values)
    (hseeds : s.seeds = S.seedsOn (S.view s.graph))
    (hinit : ∀ seed ∈ S.seedsOn (S.view s.graph), Bounds (init seed) seed.value)
    {q : Place D} {a : A} (h : Traced C init (S.view s.graph) s q a) :
    ∃ p st d₁ f φ a₁ v, (S.view s.graph).procOf? q.node = some p ∧
      (S.view s.graph).start? p = some st ∧ s.jump? ⟨d₁, q.node, q.fact⟩ =
        some f ∧ C.Covers f φ ∧ a = φ a₁ ∧ settled.get? st d₁ = some v ∧
      Bounds a₁ v := by
  induction h with
  | @seeded seed n d f φ hseed hst hf hφ =>
    obtain ⟨p, hp, hstart⟩ := Icfg.startOf?_eq_some.mp hst
    have habove := hcomputed.seed seed (by rw [hseeds]; exact hseed)
    obtain ⟨v, hv, hbounds⟩ := exists_bounds hC habove (hinit seed hseed)
    exact ⟨p, seed.node, seed.fact, f, φ, init seed, v, hp, hstart, hf, hφ, rfl,
        hv, hbounds⟩
  | @called c st n g dc e d w f φ k a _ henter hweight hw hp hf hφ ih =>
    obtain ⟨p, st₀, d₀, f₀, φ₀, a₀, v₀, hp₀, hst₀, hf₀, hφ₀, rfl, hv₀,
        hbounds₀⟩ := ih
    -- from the start above the call to the call
    have hstart : (S.view s.graph).isStart? st₀ = some true := by
      unfold Icfg.isStart?
      rw [hwf.start_owned hst₀, Option.map_some, hst₀, decide_eq_true rfl]
    have hatCall := (hcomputed.carried hv₀).toCall hstart (hwf.start_owned hst₀)
      (hwf.call_listed hp₀ henter.isCall) hf₀
    obtain ⟨v₁, hv₁, hbounds₁⟩ :=
      exists_bounds hC hatCall (hC.eval hφ₀ hbounds₀)
    -- from the call to the start of the callee
    have hfollowed := hsat.followed hf₀ id
    have hflow := hfollowed.callFlow henter.isCall henter.callee henter.start
    have hatStart := (hcomputed.carried hv₁).toCallee (w := w) (e := e)
      henter.isCall (hfollowed.known henter.isCall henter.callee)
      henter.start (by
        rw [Grid.getD, hflow, Option.getD_some]
        exact hw)
    obtain ⟨v, hv, hbounds⟩ :=
      exists_bounds hC hatStart (hC.eval (C.weight hweight) hbounds₁)
    exact ⟨g, st, e, f, φ, _, v, hp, henter.start, hf, hφ, rfl, hv, hbounds⟩

/-- Every path from a seed ends at a fact that is on record, with a
value that accounts for what the path made of its quantity. -/
private theorem exists_value_of_path (hC : C.Measures Bounds)
    (init : Seed D L → A) {graph : FlowGraph} {met : PathEdge D → Proc → Prop}
    (hwf : (S.view graph).WellFormed) (hs : Finished S C.le graph met s)
    (hsat : Saturated S C.le s)
    (hcomputed : Computed S s S.Below P settled values)
    (hweights : ∀ {a w b}, Step S (S.view s.graph) a w b → C.Weight w)
    (hinit : ∀ seed ∈ S.seedsOn (S.view s.graph), Bounds (init seed) seed.value)
    {seed : Seed D L} (hseed : seed ∈ S.seedsOn (S.view s.graph)) {ws : List W}
    {q : Place D}
    (hpath : Path S (S.view s.graph) ⟨seed.node, seed.fact, []⟩ ws q) :
    ∃ source w u, s.jump? ⟨source, q.node, q.fact⟩ = some w ∧
      values.get? q.node q.fact = some u ∧
      Bounds (C.actAll ws (init seed)) u := by
  have htraced := traced_of_path hwf hs hsat.stable hweights init hseed hpath
  have hseeds : s.seeds = S.seedsOn (S.view s.graph) := by
    rw [hs.seeds_eq, seedsOn_congr S hs.sound.origin.start?]
  obtain ⟨p, st, d₁, f, φ, a₁, v, hp, hst, hf, hφ, ha, hv, hbounds⟩ :=
    htraced.exists_settled hC (hwf.grow hs.sound.origin) hsat hcomputed
      hseeds hinit
  obtain ⟨u, hu, hbounds'⟩ :=
    exists_bounds hC (hcomputed.along hv hp hst hf) (hC.eval hφ hbounds)
  rw [ha]
  exact ⟨d₁, f, u, hf, hu, hbounds'⟩

end Supergraph

variable [DecidableEq W]

-- ============================================================ the answers

namespace Solver.Completed

variable {fuel : Nat} {graph : FlowGraph} {r : Results D L} {s₁ s : State D W L}
variable {values : Grid Node D L} {n : Node} {d : D}

/-- What is reported of a fact that a path edge ends in: its value, or
the bottom if it has none. -/
theorem resultAt_of_recorded (h : Completed S fuel graph r s₁ s (some values))
    {source : D} {w : W} (hw : s.jump? ⟨source, n, d⟩ = some w) :
    r.resultAt n d = values.getD n d S.problem.lattice.bottom := by
  have hvalue := h.value?_eq_some.mpr ⟨⟨source, w, hw⟩, rfl⟩
  rw [Results.resultAt, hvalue]
  rfl

/-- What is reported of any other fact: the bottom. -/
theorem resultAt_of_not_recorded {values? : Option (Grid Node D L)}
    (h : Completed S fuel graph r s₁ s values?)
    (hnot : ∀ source w, s.jump? ⟨source, n, d⟩ ≠ some w) :
    r.resultAt n d = S.problem.lattice.bottom := by
  have hvalue : r.value? n d = none := by
    rw [Option.eq_none_iff_forall_ne_some]
    intro v hv
    obtain ⟨⟨source, w, hw⟩, _⟩ := h.value?_eq_some.mp hv
    exact hnot source w hw
  rw [Results.resultAt, hvalue, Option.getD_none, h.bottom_eq]

/-- Nothing is reported but the values of the phase, and the bottom. -/
theorem resultAt_backed (h : Completed S fuel graph r s₁ s (some values))
    {le : L → L → Prop} {P : Node → D → L → Prop} {settled : Grid Node D L}
    (hcomputed : Values.Computed S s le P settled values) (n : Node) (d : D) :
    r.resultAt n d = S.problem.lattice.bottom ∨ P n d (r.resultAt n d) := by
  by_cases hreached : ∃ source w, s.jump? ⟨source, n, d⟩ = some w
  · obtain ⟨source, w, hw⟩ := hreached
    rw [h.resultAt_of_recorded hw, Grid.getD]
    cases hu : values.get? n d with
    | some u => exact Or.inr (hcomputed.backed hu)
    | none => exact Or.inl rfl
  · exact Or.inl (h.resultAt_of_not_recorded fun source w hw =>
        hreached ⟨source, w, hw⟩)

end Solver.Completed

/-- A complete run reports, for every path from a seed, a value that
accounts for what the path made of its quantity. -/
theorem Solver.bounds_resultAt {C : Coverage S A} {Bounds : A → L → Prop}
    (hC : C.Measures Bounds) {fuel : Nat} {graph : FlowGraph} {r : Results D L}
    (hwf : (S.view graph).WellFormed) (hpure : S.problem.IsPure)
    (hlat : S.problem.lattice.IsSemilattice)
    (hvalues : S.config.computeValues = true)
    (hrun : (solve S fuel graph).1 = .ok r) (hcomplete : r.status = .complete)
    (hweights : ∀ {a w b}, Supergraph.Step S (S.view graph) a w b → C.Weight w)
    (init : Seed D L → A)
    (hinit : ∀ seed ∈ S.seedsOn (S.view graph), Bounds (init seed) seed.value)
    {seed : Seed D L} (hseed : seed ∈ S.seedsOn (S.view graph)) {ws : List W}
    {q : Place D}
    (hpath : Supergraph.Path S (S.view graph) ⟨seed.node, seed.fact, []⟩ ws q) :
    Bounds (C.actAll ws (init seed)) (r.resultAt q.node q.fact) := by
  obtain ⟨s₁, s, values?, hdone⟩ := completed_of_solve hrun hcomplete
  obtain ⟨hsat, met, hs⟩ :=
    saturated_of_isPure C.isGrowthOrder hpure hwf.start_owned hdone.begun
    hdone.looped
  -- what values are made of does not matter here
  obtain ⟨settled, values, rfl, hcomputed⟩ :=
    hdone.computed hvalues hlat.isJoinOrder (Values.isBacking_trivial S s)
  rw [← hs.graph_eq hpure] at hseed hpath hinit hweights
  obtain ⟨source, w, u, hw, hu, hbounds⟩ :=
    Supergraph.exists_value_of_path hC init hwf hs hsat hcomputed hweights
    hinit hseed hpath
  rw [hdone.resultAt_of_recorded hw, Grid.getD, hu, Option.getD_some]
  exact hbounds

end Tabulation
