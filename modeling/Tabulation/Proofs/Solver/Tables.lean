/-
What holds of the tables at every moment of a run.

Two things are said of a computation of the solver, whatever it
computes. First, how the tables it leaves compare with those it found
(`Extends`): path edges, entries and call flows are only added, a jump
function only grows, and a path edge whose jump function is new is
pending. Second, that the tables stay sound (`Sound`): path edges and
summaries follow by the rules of tabulation on the graph as it is now,
what is pending has a jump function, and every entry into a procedure
is matched by the call flow through which it was made. `Advances` is
both together, and the preorder along which everything else is carried.

# The order of jump functions

Under which order jump functions grow is left open. `IsGrowthOrder`
asks that a join which the solver accepts is above both its sides: with
the check of joins switched on a join is accepted only if it passes the
check. For plain reachability every two functions may count as ordered;
for values the order is pointwise.

# Quiet changes

Most effects of the solver concern the tables not at all: numbering
facts, counting, recording links and exploded edges, and serving
requests, which lets the graph grow. They are quiet (`Quiet`), and both
properties hold of them at once.
-/
import Tabulation.Proofs.Deduction
import Tabulation.Proofs.Ensures
import Tabulation.Solver.Tabulate

namespace Tabulation

variable {D W L : Type} [DecidableEq D]

/-- An order of jump functions in which an accepted join is above both
sides. With the check switched off every join is accepted, and then the
order has to have all joins above. -/
structure Setup.IsGrowthOrder [DecidableEq L] (S : Setup D W L)
    (le : W → W → Prop) : Prop where
  refl : ∀ w, le w w
  trans : ∀ {u v w}, le u v → le v w → le u w
  join_above : ∀ {f g},
    (S.config.checkMonotonicity = true →
      S.isUpperBound (S.problem.functions.join f g) f g = true) →
    le f (S.problem.functions.join f g) ∧ le g (S.problem.functions.join f g)

/-- Failures that a sound run may end in: of the gaps in tables, only
that of an exit whose procedure has no start. -/
def Failure.Excused (I : Icfg) : Failure D W L → Prop
  | .rejected (.inconsistent (.startOf exit proc)) =>
    I.procOf? exit = some proc ∧ I.start? proc = none
  | .rejected (.inconsistent _) => False
  | _ => True

namespace Solver

variable (S : Setup D W L) (le : W → W → Prop) (I₀ : Icfg)

-- ======================================================== three relations

/-- A change that leaves the tables alone and lets the graph grow at
most. -/
structure Quiet (s s' : State D W L) : Prop where
  view : (S.view s.graph).GrowsTo (S.view s'.graph)
  graph : S.problem.IsPure → s'.graph = s.graph
  jumps : s'.jumps = s.jumps
  incoming : s'.incoming = s.incoming
  summaries : s'.summaries = s.summaries
  callFlows : s'.callFlows = s.callFlows
  known : s'.known = s.known
  worklist : s'.worklist = s.worklist
  seeds : s'.seeds = s.seeds
  seenRevision : s'.seenRevision = s.seenRevision

/-- Tables of a later moment of a run. It is `Extends` without what the
loop changes between path edges. -/
structure Later (s s' : State D W L) : Prop where
  view : (S.view s.graph).GrowsTo (S.view s'.graph)
  graph : S.problem.IsPure → s'.graph = s.graph
  jump : ∀ {e w}, s.jump? e = some w → ∃ w', s'.jump? e = some w' ∧ le w w'
  seeds : s'.seeds = s.seeds

/-- How tables change while a path edge is followed: they are added to,
and nothing is taken back. -/
structure Extends (s s' : State D W L) : Prop extends Later S le s s' where
  /-- A path edge whose jump function is new is pending. -/
  changed : ∀ e, s'.jump? e = s.jump? e ∨ e ∈ s'.worklist
  worklist : ∀ {e}, e ∈ s.worklist → e ∈ s'.worklist
  incoming : ∀ {i}, i ∈ s.incoming → i ∈ s'.incoming
  callFlow : ∀ {c k ts}, s.callFlows.get? c k = some ts →
    s'.callFlows.get? c k = some ts
  known : s'.known = s.known
  summaries : s'.summaries = s.summaries
  seenRevision : s'.seenRevision = s.seenRevision

/-- Tables that hold nothing but what follows by the rules, and whose
parts match. `I₀` is the graph as it was at the beginning. -/
structure Sound (s : State D W L) : Prop where
  origin : I₀.GrowsTo (S.view s.graph)
  jump : ∀ {e w}, s.jump? e = some w →
    Supergraph.Derivable S (S.view s.graph) e w
  worklist : ∀ {e}, e ∈ s.worklist → ∃ w, s.jump? e = some w
  summary : ∀ {k w}, s.summaries.get? k = some w →
    (S.view s.graph).Leaves k.exit k.proc ∧
      Supergraph.Derivable S (S.view s.graph) ⟨k.entry, k.exit, k.exitFact⟩ w
  callFlow : ∀ {c g d ts}, s.callFlows.get? c (g, d) = some ts →
    ∃ start, (S.view s.graph).Enters c g start ∧ ts = S.callTargets c g start d
  /-- An entry was made by a path edge that ends at the call, through a
  call flow that is on record. -/
  incoming : ∀ {i}, i ∈ s.incoming → ∃ g ts,
    (S.view s.graph).Enters i.site g i.start ∧
      s.callFlows.get? i.site (g, i.callFact) = some ts ∧
      i.entry ∈ ts.map Prod.fst ∧
      ∃ d w, s.jump? ⟨d, i.site, i.callFact⟩ = some w
  known : ∀ {c g}, (c, g) ∈ s.known → g ∈ (S.view s.graph).callees c

/-- Sound tables that come of earlier ones. -/
structure Advances (s s' : State D W L) : Prop extends Extends S le s s' where
  sound : Sound S I₀ s'

/-- A path edge is on record with a jump function that is above the
given one. The rules are met in this sense. -/
def AtLeast (s : State D W L) (e : PathEdge D) (w : W) : Prop :=
  ∃ w', s.jump? e = some w' ∧ le w w'

variable {S le I₀} {s s' s'' : State D W L}

-- ========================================================= quiet changes

/-- A node without a row has no path edges. -/
theorem State.mem_rows_of_jump? {e : PathEdge D} {w : W}
    (h : s.jump? e = some w) : e.node ∈ s.jumps.rows.keys := by
  rw [Table.mem_keys]
  cases hrow : s.jumps.rows.get? e.node with
  | some row => exact ⟨row, rfl⟩
  | none =>
    have hempty : s.jumps.row e.node = .empty := by
      rw [Grid.row, Table.getD, hrow]
      rfl
    rw [State.jump?, Grid.get?, hempty] at h
    cases h

theorem Quiet.jump? (h : Quiet S s s') (e : PathEdge D) :
    s'.jump? e = s.jump? e := by
  unfold State.jump?
  rw [h.jumps]

section Quiet

omit [DecidableEq D]

/-- What is noted beside the tables may change. Six of the fields of
the state are of this kind. -/
theorem Quiet.aside (s : State D W L) (facts : List D) (links : Links)
    (exploded : List (ExplodedEdge D)) (stats : Statistics) (cancelled : Bool)
    (evaluations : Nat) :
    Quiet S s
      { s with facts, links, exploded, stats, cancelled, evaluations } :=
  ⟨.refl _, fun _ => rfl, rfl, rfl, rfl, rfl, rfl, rfl, rfl, rfl⟩

theorem Quiet.refl (s : State D W L) : Quiet S s s := .aside ..

theorem Quiet.trans (h : Quiet S s s') (h' : Quiet S s' s'') :
    Quiet S s s'' where
  view := h.view.trans h'.view
  graph := fun hp => (h'.graph hp).trans (h.graph hp)
  jumps := h'.jumps.trans h.jumps
  incoming := h'.incoming.trans h.incoming
  summaries := h'.summaries.trans h.summaries
  callFlows := h'.callFlows.trans h.callFlows
  known := h'.known.trans h.known
  worklist := h'.worklist.trans h.worklist
  seeds := h'.seeds.trans h.seeds
  seenRevision := h'.seenRevision.trans h.seenRevision

/-- Requests concern the graph and the wish to stop, and nothing else. -/
theorem serveAll_eq (rs : List Request) (s : State D W L) :
    rs.foldl State.serve s =
      { s with
        graph := (rs.foldl State.serve s).graph
        cancelled := (rs.foldl State.serve s).cancelled } := by
  induction rs generalizing s with
  | nil => rfl
  | cons r rs ih =>
    rw [List.foldl_cons, ih (s.serve r)]
    cases r <;> rfl

/-- The graph grows with each request, so it grows with all of them.
Only requests that are really made have to let it grow. -/
theorem growsTo_serveAll {rs : List Request}
    (hrs : ∀ c p, Request.resolve c p ∈ rs →
      ∀ g, (S.view g).GrowsTo (S.view (g.resolve c p))) :
    (S.view s.graph).GrowsTo (S.view (rs.foldl State.serve s).graph) := by
  induction rs generalizing s with
  | nil => exact .refl _
  | cons r rs ih =>
    have hr : (S.view s.graph).GrowsTo (S.view (s.serve r).graph) := by
      cases r with
      | resolve c p => exact hrs c p List.mem_cons_self s.graph
      | cancel => exact .refl _
    exact hr.trans (ih fun c p h => hrs c p (List.mem_cons_of_mem _ h))

/-- Serving the requests of a steady setup is quiet. -/
theorem quiet_serveAll (h : S.IsSteady) (k : Nat) (edge : FlowEdge) (d : D) :
    Quiet S s ((S.problem.requests k edge d).foldl State.serve s) := by
  have hview := growsTo_serveAll (s := s) (h k edge d)
  have hpure : S.problem.IsPure →
      ((S.problem.requests k edge d).foldl State.serve s).graph = s.graph := by
    intro hp
    rw [hp k edge d]
    rfl
  rw [serveAll_eq] at hview hpure ⊢
  exact ⟨hview, hpure, rfl, rfl, rfl, rfl, rfl, rfl, rfl, rfl⟩

end Quiet

-- ============================================================== extension

/-- What is on record stays on record. -/
theorem Later.exists_jump (h : Later S le s s') {e : PathEdge D}
    (he : ∃ w, s.jump? e = some w) : ∃ w, s'.jump? e = some w := by
  obtain ⟨w, hw⟩ := he
  obtain ⟨w', hw', _⟩ := h.jump hw
  exact ⟨w', hw'⟩

/-- A path edge that is not pending has the jump function it had
before. -/
theorem Extends.jump_eq (h : Extends S le s s') {e : PathEdge D}
    (he : e ∉ s'.worklist) : s.jump? e = s'.jump? e := by
  rcases h.changed e with heq | hmem
  · exact heq.symm
  · exact absurd hmem he

section Order

variable [DecidableEq L]

/-- Tables that are left alone are extended, trivially. -/
theorem Quiet.extends (hle : S.IsGrowthOrder le) (h : Quiet S s s') :
    Extends S le s s' where
  view := h.view
  graph := h.graph
  jump := fun {e w} hw => ⟨w, (h.jump? e).trans hw, hle.refl w⟩
  changed := fun e => Or.inl (h.jump? e)
  worklist := fun he => h.worklist ▸ he
  incoming := fun hi => h.incoming ▸ hi
  callFlow := fun ht => h.callFlows ▸ ht
  known := h.known
  summaries := h.summaries
  seeds := h.seeds
  seenRevision := h.seenRevision

/-- Later tables may differ in anything else as they like. -/
theorem Later.of_eq (hle : S.IsGrowthOrder le) (hgraph : s'.graph = s.graph)
    (hjumps : s'.jumps = s.jumps) (hseeds : s'.seeds = s.seeds) :
    Later S le s s' where
  view := by
    rw [hgraph]
    exact .refl _
  graph := fun _ => hgraph
  jump := by
    intro e w hw
    refine ⟨w, ?_, hle.refl w⟩
    unfold State.jump? at hw ⊢
    rw [hjumps]
    exact hw
  seeds := hseeds

theorem Later.refl (hle : S.IsGrowthOrder le) (s : State D W L) :
    Later S le s s :=
  .of_eq hle rfl rfl rfl

theorem Later.trans (hle : S.IsGrowthOrder le) (h : Later S le s s')
    (h' : Later S le s' s'') : Later S le s s'' where
  view := h.view.trans h'.view
  graph := fun hp => (h'.graph hp).trans (h.graph hp)
  jump := by
    intro e w hw
    obtain ⟨w', hw', hle'⟩ := h.jump hw
    obtain ⟨w'', hw'', hle''⟩ := h'.jump hw'
    exact ⟨w'', hw'', hle.trans hle' hle''⟩
  seeds := h'.seeds.trans h.seeds

theorem Extends.refl (hle : S.IsGrowthOrder le) (s : State D W L) :
    Extends S le s s :=
  (Quiet.refl s).extends hle

/-- One extension after another. A path edge that changed in the first
is still pending after the second. -/
theorem Extends.trans (hle : S.IsGrowthOrder le) (h : Extends S le s s')
    (h' : Extends S le s' s'') : Extends S le s s'' where
  toLater := h.toLater.trans hle h'.toLater
  changed := by
    intro e
    rcases h'.changed e with he | he
    · rcases h.changed e with he' | he'
      · exact Or.inl (he.trans he')
      · exact Or.inr (h'.worklist he')
    · exact Or.inr he
  worklist := fun he => h'.worklist (h.worklist he)
  incoming := fun hi => h'.incoming (h.incoming hi)
  callFlow := fun ht => h'.callFlow (h.callFlow ht)
  known := h'.known.trans h.known
  summaries := h'.summaries.trans h.summaries
  seenRevision := h'.seenRevision.trans h.seenRevision

/-- A rule that is met stays met, because jump functions only grow. -/
theorem AtLeast.later (hle : S.IsGrowthOrder le) {e : PathEdge D} {w : W}
    (h : AtLeast le s e w) (hs : Later S le s s') : AtLeast le s' e w := by
  obtain ⟨w', hw', hle'⟩ := h
  obtain ⟨w'', hw'', hle''⟩ := hs.jump hw'
  exact ⟨w'', hw'', hle.trans hle' hle''⟩

theorem AtLeast.extend (hle : S.IsGrowthOrder le) {e : PathEdge D} {w : W}
    (h : AtLeast le s e w) (hs : Extends S le s s') : AtLeast le s' e w :=
  h.later hle hs.toLater

-- ============================================================== soundness

omit [DecidableEq L] in
/-- Quiet changes keep tables sound. What follows by the rules on a
graph follows on one that it has grown to. -/
theorem Sound.quiet (hs : Sound S I₀ s) (h : Quiet S s s') : Sound S I₀ s' where
  origin := hs.origin.trans h.view
  jump := by
    intro e w hw
    rw [h.jump?] at hw
    exact (hs.jump hw).grow h.view
  worklist := by
    intro e he
    rw [h.worklist] at he
    rw [h.jump?]
    exact hs.worklist he
  summary := by
    intro k w hk
    rw [h.summaries] at hk
    obtain ⟨hleave, hder⟩ := hs.summary hk
    exact ⟨h.view.leaves_iff.mpr hleave, hder.grow h.view⟩
  callFlow := by
    intro c g d ts ht
    rw [h.callFlows] at ht
    obtain ⟨start, henter, hts⟩ := hs.callFlow ht
    exact ⟨start, h.view.enters henter, hts⟩
  incoming := by
    intro i hi
    rw [h.incoming] at hi
    obtain ⟨g, ts, henter, ht, hentry, d, w, hw⟩ := hs.incoming hi
    exact ⟨g, ts, h.view.enters henter, h.callFlows ▸ ht, hentry, d, w,
        (h.jump? _).trans hw⟩
  known := by
    intro c g hk
    rw [h.known] at hk
    exact h.view.callees (hs.known hk)

theorem Sound.advances (hle : S.IsGrowthOrder le) (hs : Sound S I₀ s) :
    Advances S le I₀ s s :=
  ⟨.refl hle s, hs⟩

theorem Quiet.advances (hle : S.IsGrowthOrder le) (h : Quiet S s s')
    (hs : Sound S I₀ s) : Advances S le I₀ s s' :=
  ⟨h.extends hle, hs.quiet h⟩

theorem Advances.refl_right (hle : S.IsGrowthOrder le)
    (h : Advances S le I₀ s s') : Advances S le I₀ s' s' :=
  h.sound.advances hle

/-- Along extensions, soundness is that of the last tables. -/
theorem Advances.trans (hle : S.IsGrowthOrder le) (h : Advances S le I₀ s s')
    (h' : Advances S le I₀ s' s'') : Advances S le I₀ s s'' :=
  ⟨h.toExtends.trans hle h'.toExtends, h'.sound⟩

/-- A loop of the solver over a list, where later tables keep what one
turn ensures of its member. -/
theorem ensures_forM (hle : S.IsGrowthOrder le) {β : Type}
    {G : β → State D W L → Prop}
    (hkeep : ∀ {x a b}, G x a → Extends S le a b → G x b)
    {f : β → SolverM D W L PUnit} {l : List β} (hs : Sound S I₀ s)
    (hstep : ∀ x ∈ l, ∀ s', Advances S le I₀ s s' →
      Ensures (Failure.Excused I₀) (f x) (fun _ s'' => Advances S le I₀ s' s'' ∧
        G x s'') s') :
    Ensures (Failure.Excused I₀) (l.forM f)
      (fun _ s' => Advances S le I₀ s s' ∧ ∀ x ∈ l, G x s') s :=
  Ensures.forM (A := Advances S le I₀) (G := G) (fun h => h.refl_right hle)
    (fun h h' => h.trans hle h') (fun hG hA => hkeep hG hA.toExtends)
      (hs.advances hle) hstep

end Order

end Solver

end Tabulation
