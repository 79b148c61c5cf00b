/-
Values are joins over paths.

A problem is distributive if its codes compose and join like the
functions they stand for, and these carry joins to joins. For such a
problem a complete run reports, for every fact at every node, the least
value above those that the paths from the seeds give it
(`isLub_resultAt`).

# The two halves

That the value is high enough is coverage: a code accounts for an
effect if it maps what is above a value to something above the effect
of that value (`Coverage.ofDistributive`).

That it is low enough is a matter of what values are made of. Every
jump function evaluates to a join of the values along its paths, every
value is a join of the values of paths from seeds, and a value above
all of these is above the join (`Joined`). Joins are finite here
although there may be infinitely many paths, because a run is finite.
-/
import Tabulation.Proofs.Program.Layout
import Tabulation.Proofs.Valuation

namespace Tabulation

-- ========================================================== finite joins

section Joins

variable {W L : Type} {V : ValueLattice L} {E : EdgeFunctions W L}
variable {P Q : L → Prop} {v : L}

/-- The joins of finitely many values, at least one, that are as `P`
says. -/
inductive Joined (V : ValueLattice L) (P : L → Prop) : L → Prop
  | one {v : L} : P v → Joined V P v
  | join {v u : L} : Joined V P v → Joined V P u → Joined V P (V.join v u)

/-- The condition on the values may be weakened. -/
theorem Joined.mono (h : Joined V P v) (hPQ : ∀ x, P x → Q x) :
    Joined V Q v := by
  induction h with
  | one hv => exact .one (hPQ _ hv)
  | join _ _ ih ih' => exact .join ih ih'

/-- What is above the values is above their join. This is where joins
being least upper bounds comes in. -/
theorem Joined.leq [DecidableEq L] (hV : V.IsSemilattice) (h : Joined V P v)
    {b : L} (hb : ∀ x, P x → V.leq x b = true) : V.leq v b = true := by
  induction h with
  | one hv => exact hb _ hv
  | join _ _ ih ih' => exact hV.join_leq ih ih'

/-- A function that carries joins to joins may be applied to each of
the values. -/
theorem Joined.eval (hE : E.IsDistributive V) (h : Joined V P v) (f : W)
    (hf : ∀ x, P x → Joined V Q (E.eval f x)) : Joined V Q (E.eval f v) := by
  induction h with
  | one hv => exact hf _ hv
  | join _ _ ih ih' =>
    rw [hE.eval_of_join]
    exact .join ih ih'

/-- To go along one sequence and then another is to go along both. -/
private theorem evalAll_append (ws vs : List W) (v : L) :
    E.evalAll (ws ++ vs) v = E.evalAll vs (E.evalAll ws v) :=
  List.foldl_append

end Joins

variable {D W L : Type} [DecidableEq D] {S : Setup D W L}

omit [DecidableEq D] in
/-- A code stands for paths if it evaluates to a join of the values
along them. Composition and joins of codes keep this, by
distributivity. -/
theorem Setup.isSpanning_joined
    (h : S.problem.functions.IsDistributive S.problem.lattice) :
    S.IsSpanning fun f P => ∀ v, Joined S.problem.lattice
      (fun y => ∃ ws, P ws ∧ S.problem.functions.evalAll ws v = y)
      (S.problem.functions.eval f v) where
  identity := by
    intro P hP v
    refine .one ⟨[], hP, ?_⟩
    exact (h.eval_identity v).symm
  weight := fun {w P} hP v => .one ⟨[w], hP, rfl⟩
  comp := by
    intro f g P Q R hf hg hR v
    show Joined _ _ (S.problem.functions.eval (S.problem.functions.comp f g) v)
    rw [h.eval_comp]
    refine (hf v).eval h g fun x hx => ?_
    obtain ⟨ws, hws, rfl⟩ := hx
    refine (hg _).mono fun y hy => ?_
    obtain ⟨vs, hvs, rfl⟩ := hy
    exact ⟨ws ++ vs, hR hws hvs, evalAll_append ws vs v⟩
  join := by
    intro f g P hf hg v
    rw [h.eval_join]
    exact .join (hf v) (hg v)

-- ======================================================== low enough

namespace Supergraph

variable {I : Icfg} {n m c st : Node} {d e : D} {g : Proc} {v : L} {w : W}

/-- A path goes on inside its activation, through calls that come back. -/
theorem Yields.sameLevel {ws : List W} (h : Yields S I n d v)
    (hws : SameLevel S I n d m e ws) :
    Yields S I m e (S.problem.functions.evalAll ws v) := by
  obtain ⟨seed, hseed, us, k, hpath, rfl⟩ := h
  exact ⟨seed, hseed, us ++ ws, k, hpath.trans (hws k),
      evalAll_append us ws seed.value⟩

/-- A path goes on into a callee, with the value that the call makes of
its own. -/
theorem Yields.call (h : Yields S I c d v) (henter : I.Enters c g st)
    (hw : (e, w) ∈ S.callTargets c g st d) :
    Yields S I st e (S.problem.functions.eval w v) := by
  obtain ⟨seed, hseed, us, k, hpath, rfl⟩ := h
  refine ⟨seed, hseed, us ++ [w], ⟨c, d⟩ :: k, hpath.snoc ?_,
      evalAll_append us [w] seed.value⟩
  exact .call henter.isCall henter.callee henter.start hw

end Supergraph

variable {s : State D W L} {I₀ : Icfg}

/-- What derivable path edges and calls carry from value to value, the
value phase does. It reads nothing but call flows and jump functions,
and in sound tables these are what the rules say. -/
theorem Solver.Sound.isBacking_of (hs : Solver.Sound S I₀ s)
    (hlists : I₀.ListsOwnCalls) (hsame : s.seeds = S.seedsOn (S.view s.graph))
    {P : Node → D → L → Prop}
    (hseed : ∀ seed ∈ S.seedsOn (S.view s.graph),
      P seed.node seed.fact seed.value)
    (hjoin : ∀ {n d v u}, P n d v → P n d u →
      P n d (S.problem.lattice.join v u))
    (hcall : ∀ {c g st d e w v}, P c d v → (S.view s.graph).Enters c g st →
      (e, w) ∈ S.callTargets c g st d → P st e (S.problem.functions.eval w v))
    (halong : ∀ {st n d e w v}, P st d v →
      (S.view s.graph).startOf? n = some st →
      Supergraph.Derivable S (S.view s.graph) ⟨d, n, e⟩ w →
      P n e (S.problem.functions.eval w v)) : Values.IsBacking S s P := by
  have hinside : ∀ {n d e v p st w}, P st d v →
      (S.view s.graph).procOf? n = some p →
      (S.view s.graph).start? p = some st → s.jump? ⟨d, n, e⟩ = some w →
      P n e (S.problem.functions.eval w v) :=
    fun hv hp hst hw => halong hv (Icfg.startOf?_eq_some.mpr ⟨_, hp, hst⟩)
      (hs.jump hw)
  refine ⟨⟨?_, hjoin, ?_, ?_⟩, hinside⟩
  · intro seed hmem
    rw [hsame] at hmem
    exact hseed seed hmem
  -- from a start to the calls of its procedure
  · intro n d v p c e w hv hstart hp hc hw
    obtain ⟨q, hq, hst⟩ := Option.map_eq_some_iff.mp hstart
    obtain rfl := Option.some.inj (hp.symm.trans hq)
    rw [hs.origin.callsWithin] at hc
    have hpc := hlists hc
    rw [← hs.origin.procOf?] at hpc
    exact hinside hv hpc (of_decide_eq_true hst) hw
  -- from a call into a callee, by a call flow on record
  · intro n d v g st e w hv _ _ hst hw
    unfold Grid.getD at hw
    cases hflow : s.callFlows.get? n (g, d) with
    | none =>
      rw [hflow] at hw
      exact absurd hw List.not_mem_nil
    | some ts =>
      rw [hflow] at hw
      obtain ⟨st', henter, rfl⟩ := hs.callFlow hflow
      obtain rfl := Option.some.inj (henter.start.symm.trans hst)
      exact hcall hv henter hw

/-- A value that is a join over paths is carried to joins over paths.
Along a path edge each of the joined values goes on by paths of its
own, and the results are joined again. -/
theorem Solver.Sound.isBacking (hs : Solver.Sound S I₀ s) (hwf : I₀.WellFormed)
    (hlists : I₀.ListsOwnCalls)
    (hseeds : ∀ seed ∈ S.seedsOn (S.view s.graph),
      (S.view s.graph).isStart? seed.node = some true)
    (hsame : s.seeds = S.seedsOn (S.view s.graph))
    (h : S.problem.functions.IsDistributive S.problem.lattice) :
    Values.IsBacking S s fun n d =>
      Joined S.problem.lattice (Supergraph.Yields S (S.view s.graph) n d) := by
  refine hs.isBacking_of hlists hsame
    (fun seed hseed => .one ⟨seed, hseed, [], [], .here, rfl⟩) .join ?_ ?_
  · intro c g st d e w v hv henter hw
    exact hv.eval h w fun x hx => .one (hx.call henter hw)
  · intro st n d e w v hv hst hw
    obtain ⟨st', hst', hspan⟩ :=
      hw.spans (hwf.grow hs.origin) hseeds (Setup.isSpanning_joined h)
    obtain rfl := Option.some.inj (hst.symm.trans hst')
    refine hv.eval h w fun x hx => (hspan x).mono fun y hy => ?_
    obtain ⟨ws, hws, rfl⟩ := hy
    exact hx.sameLevel hws

-- ======================================================= high enough

variable [DecidableEq L]

/-- Values themselves as the quantity that paths act on. A code
accounts for an effect if it carries what is above a value to something
above the effect of that value. -/
def Coverage.ofDistributive (hlat : S.problem.lattice.IsSemilattice)
    (h : S.problem.functions.IsDistributive S.problem.lattice) :
    Coverage S L where
  act := S.problem.functions.eval
  Weight := fun _ => True
  Covers := fun f φ => ∀ a v, S.problem.lattice.leq a v = true →
    S.problem.lattice.leq (φ a) (S.problem.functions.eval f v) = true
  identity := by
    intro a v hle
    show S.problem.lattice.leq a
      (S.problem.functions.eval S.problem.functions.identity v) = true
    rw [h.eval_identity]
    exact hle
  weight := by
    intro w _ a v hle
    rw [ValueLattice.leq_iff] at hle ⊢
    rw [← h.eval_of_join, hle]
  comp := by
    intro f g φ ψ hf hg a v hle
    show S.problem.lattice.leq _
      (S.problem.functions.eval (S.problem.functions.comp f g) v) = true
    rw [h.eval_comp]
    exact hg _ _ (hf a v hle)
  join_left := by
    intro f g φ hf a v hle
    rw [h.eval_join]
    exact hlat.leq_trans (hf a v hle) (hlat.leq_join_left _ _)
  join_right := by
    intro f g φ hg a v hle
    rw [h.eval_join]
    exact hlat.leq_trans (hg a v hle) (hlat.leq_join_right _ _)

omit [DecidableEq D] in
/-- A value accounts for all values below it. -/
theorem Coverage.measures_ofDistributive
    (hlat : S.problem.lattice.IsSemilattice)
    (h : S.problem.functions.IsDistributive S.problem.lattice) :
    (Coverage.ofDistributive hlat h).Measures fun a v =>
      S.problem.lattice.leq a v = true where
  mono := fun hav hvu => hlat.leq_trans hav hvu
  eval := fun hf hav => hf _ _ hav

-- ============================================================ the theorem

namespace Solver

variable [DecidableEq W] {fuel : Nat} {graph : FlowGraph} {r : Results D L}

/-- What is reported is the bottom, or a join of the values of paths.
The bottom stands for facts that were not reached. -/
private theorem joined_resultAt (hwf : (S.view graph).WellFormed)
    (hlists : (S.view graph).ListsOwnCalls) (hpure : S.problem.IsPure)
    (hlat : S.problem.lattice.IsSemilattice)
    (hdist : S.problem.functions.IsDistributive S.problem.lattice)
    (hvalues : S.config.computeValues = true)
    (hrun : (solve S fuel graph).1 = .ok r) (hcomplete : r.status = .complete)
    (n : Node) (d : D) :
    r.resultAt n d = S.problem.lattice.bottom ∨
      Joined S.problem.lattice (Supergraph.Yields S (S.view graph) n d)
        (r.resultAt n d) := by
  obtain ⟨s₁, s, values?, hdone⟩ := completed_of_solve hrun hcomplete
  obtain ⟨_, met, hs⟩ :=
    saturated_of_isPure (Coverage.ofDistributive hlat hdist).isGrowthOrder hpure
    hwf.start_owned hdone.begun hdone.looped
  have hgraph := hs.graph_eq hpure
  have hbacking : Values.IsBacking S s fun n d =>
      Joined S.problem.lattice (Supergraph.Yields S (S.view s.graph) n d) := by
    apply hs.sound.isBacking hwf hlists _ _ hdist
    · rw [hgraph]
      exact hs.atStart
    · rw [hgraph]
      exact hs.seeds_eq
  obtain ⟨settled, values, rfl, hcomputed⟩ :=
    hdone.computed hvalues hlat.isJoinOrder
    hbacking
  rw [← hgraph]
  exact hdone.resultAt_backed hcomputed n d

/-- The value reported for a fact at a node is the least one above the
values of the paths that lead there. -/
theorem isLub_resultAt (hwf : (S.view graph).WellFormed)
    (hlists : (S.view graph).ListsOwnCalls) (hpure : S.problem.IsPure)
    (hlat : S.problem.lattice.IsSemilattice)
    (hdist : S.problem.functions.IsDistributive S.problem.lattice)
    (hvalues : S.config.computeValues = true)
    (hrun : (solve S fuel graph).1 = .ok r) (hcomplete : r.status = .complete)
    (n : Node) (d : D) :
    S.problem.lattice.IsLub (Supergraph.Yields S (S.view graph) n d)
      (r.resultAt n d) := by
  constructor
  · intro v hv
    obtain ⟨seed, hseed, ws, k, hpath, rfl⟩ := hv
    exact bounds_resultAt (Coverage.measures_ofDistributive hlat hdist) hwf
      hpure hlat hvalues hrun hcomplete (fun _ => trivial) Seed.value
      (fun seed _ => hlat.leq_refl seed.value) hseed hpath
  · intro b hb
    rcases joined_resultAt hwf hlists hpure hlat hdist hvalues hrun
      hcomplete n d with
      hbottom | hjoined
    · rw [hbottom]
      exact hlat.bottom_leq b
    · exact hjoined.leq hlat hb

end Solver

-- ========================================================= reachability

/-- The two-valued lattice is a semilattice. -/
theorem Binary.isSemilattice : Binary.lattice.IsSemilattice where
  join_assoc := fun a b c => by cases a <;> rfl
  join_comm := fun a b => by cases a <;> cases b <;> rfl
  join_idem := fun a => by cases a <;> rfl
  bottom_join := fun _ => rfl
  top_join := fun _ => rfl

/-- The extremes and the identity are distributive over every lattice.
So every reachability problem is. -/
theorem BinaryEdge.isDistributive {L : Type} {V : ValueLattice L}
    (h : V.IsSemilattice) : (BinaryEdge.functions V).IsDistributive V where
  eval_comp := fun f g v => by cases f <;> cases g <;> rfl
  eval_identity := fun _ => rfl
  eval_join := by
    intro f g v
    show eval V (join f g) v = V.join (eval V f v) (eval V g v)
    cases f with
    | allTop => exact (h.top_join _).symm
    | allBottom => cases g <;> exact (h.bottom_join _).symm
    | identity =>
      cases g with
      | allTop => exact ((h.join_comm _ _).trans (h.top_join _)).symm
      | allBottom => exact ((h.join_comm _ _).trans (h.bottom_join _)).symm
      | identity => exact (h.join_idem v).symm
  eval_of_join := by
    intro f v u
    cases f with
    | allTop => exact (h.top_join _).symm
    | allBottom => exact (h.bottom_join _).symm
    | identity => rfl

namespace Solver

/-- A procedure that is called twice in a row. -/
def twoVisits : Draft := .ofSteps [
  .declare "main" [],
  .declare "visited" [],
  .write ⟨0⟩ (.call (.direct ⟨1⟩) [] none),
  .write ⟨0⟩ (.call (.direct ⟨1⟩) [] none),
  .write ⟨0⟩ .nop,
  .write ⟨1⟩ .nop]

/-- A token goes through `twoVisits`, and only its second call gives it
the top value. -/
def twoVisitsSetup : Setup Bool BinaryEdge Binary where
  problem :=
    { lattice := Binary.lattice
      functions := BinaryEdge.functions Binary.lattice
      zero := false
      entries := []
      seeds := [{ node := ⟨0⟩, fact := true, value := .bottom }]
      initial := .top
      flow := fun edge d =>
        match edge, d with
        | .callToReturn .., _ => .ok []
        | _, false => .ok []
        | .call site _ _, true =>
          .ok [(true, if site = ⟨1⟩ then .allTop else .identity)]
        | _, true => .ok [(true, .identity)] }

/-- Inside the procedure both visits show, but back from the first one
its own value is all there is. -/
theorem isLub_resultAt_twoVisits :
    ∃ r, (solve twoVisitsSetup 100 twoVisits.build.graph).1 = .ok r ∧
      r.status = .complete ∧ r.resultAt ⟨3⟩ true = .top ∧
      r.holdsFact ⟨1⟩ true = .reachable ∧
      r.resultAt ⟨1⟩ true = .bottom ∧
      Binary.lattice.IsLub
        (Supergraph.Yields twoVisitsSetup twoVisits.build.graph.icfg ⟨1⟩ true)
        .bottom := by
  have hlaid : twoVisits.build.IsLaidOut :=
    Draft.isLaidOut_build (Draft.isNumbered_ofSteps _)
      (by unfold Draft.IsScoped; decide)
  have heval : (solve twoVisitsSetup 100 twoVisits.build.graph).1.toOption.map
      (fun r => (r.status, r.resultAt ⟨3⟩ true, r.holdsFact ⟨1⟩ true,
      r.resultAt ⟨1⟩ true)) = some (.complete, .top, .reachable, .bottom) := by
      decide +kernel
  obtain ⟨r, hrun, hr⟩ := exists_ok_of_map heval
  simp only [Prod.mk.injEq] at hr
  obtain ⟨hcomplete, hinside, hreached, hback⟩ := hr
  have hlub := isLub_resultAt hlaid.wellFormed hlaid.listsOwnCalls
    (fun _ _ _ => rfl) Binary.isSemilattice
    (BinaryEdge.isDistributive Binary.isSemilattice) rfl hrun hcomplete ⟨1⟩ true
  rw [hback] at hlub
  exact ⟨r, hrun, hcomplete, hinside, hreached, hback, hlub⟩

end Solver

end Tabulation
