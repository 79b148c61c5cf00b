/-
The analyses of the example language come to an end.

A run works on what the program has: its nodes, the facts about its
variables and those of the seeds. Jump functions and values rise a few
times each. What is left is the rounds in which call sites are visited
again because their targets grew, and there can be one for each call
that is resolved.

# Resolving calls during a run

Flow functions may have calls resolved while they are evaluated. If the
calls are drawn from a finite set of call sites with their targets,
then every one that is new takes a pair off the set of those
unresolved, while the revision of the graph moves on by one
(`revision_resolve_le`). So the revision has a last value, and with it
the rounds are bounded.

# Nothing else happens

A run can fail in many ways, and on a program that was built none of
them arises: every node that can be met has a statement, joins pass the
check, and every procedure that owns an exit has a start.
-/
import Mathlib.Data.Finset.Card
import Tabulation.Proofs.Consistency
import Tabulation.Proofs.GuardedJoins
import Tabulation.Proofs.Program.Analysis
import Tabulation.Proofs.Program.Text
import Tabulation.Proofs.Solver.Settings

namespace Tabulation

-- ============================================================== unresolved

/-- How many of the pairs are calls that are not resolved yet. This is
what resolving calls uses up. -/
def FlowGraph.unresolved (g : FlowGraph) (pairs : Finset (Node × Proc)) : Nat :=
  (pairs.filter fun x => x.2 ∉ g.callees x.1).card

/-- The requests resolve calls among the pairs, and ask for nothing
else. In particular, none asks for the run to be stopped. -/
def ResolvesWithin {D : Type} (requests : Nat → FlowEdge → D → List Request)
    (pairs : Finset (Node × Proc)) : Prop :=
  ∀ k edge d, ∀ r ∈ requests k edge d, ∃ x ∈ pairs, r = .resolve x.1 x.2

/-- A call that is new takes a pair from those unresolved, and moves
the revision on by one. So the two together do not grow. -/
theorem FlowGraph.revision_resolve_le (g : FlowGraph)
    {pairs : Finset (Node × Proc)} {x : Node × Proc} (hx : x ∈ pairs) :
    (g.resolve x.1 x.2).revision + (g.resolve x.1 x.2).unresolved pairs ≤
      g.revision + g.unresolved pairs := by
  by_cases hmem : x.2 ∈ g.callees x.1
  · rw [resolve_of_mem hmem]
  · have hrevision : (g.resolve x.1 x.2).revision = g.revision + 1 := by
      rw [resolve_of_not_mem hmem]
    have hless : (g.resolve x.1 x.2).unresolved pairs < g.unresolved pairs := by
      refine Finset.card_lt_card
        (Finset.ssubset_iff_of_subset ?_ |>.mpr ⟨x, ?_, ?_⟩)
      · exact Finset.monotone_filter_right _ fun y _ hy hmem =>
          hy ((icfg_growsTo_resolve g x.1 x.2).callees hmem)
      · exact Finset.mem_filter.mpr ⟨hx, hmem⟩
      · intro h
        refine (Finset.mem_filter.mp h).2 ?_
        rw [callees_resolve, if_pos rfl]
        exact Listing.mem_add.mpr (Or.inr rfl)
    omega

namespace Solver

variable {D W L : Type}
variable {S : Setup D W L} {pairs : Finset (Node × Proc)} {s s' : State D W L}

/-- Nobody asked to stop, and the revision of the graph is bounded.
With the revision, the rounds are bounded in which call sites are
visited again. -/
structure Ongoing (pairs : Finset (Node × Proc)) (last : Nat)
    (s : State D W L) : Prop where
  uncancelled : s.cancelled = false
  bounded : s.graph.revision + s.graph.unresolved pairs ≤ last

/-- Requests among the pairs keep it so, one after the other. -/
theorem Ongoing.serveAll {last : Nat} (hs : Ongoing pairs last s)
    {rs : List Request} (hrs : ∀ r ∈ rs, ∃ x ∈ pairs, r = .resolve x.1 x.2) :
    Ongoing pairs last (rs.foldl State.serve s) := by
  induction rs generalizing s with
  | nil => exact hs
  | cons r rs ih =>
    obtain ⟨x, hx, rfl⟩ := hrs r List.mem_cons_self
    refine ih ⟨hs.uncancelled, ?_⟩ fun r hr => hrs r (List.mem_cons_of_mem _ hr)
    exact Nat.le_trans (s.graph.revision_resolve_le hx) hs.bounded

variable [DecidableEq D] [DecidableEq L]

/-- Following a path edge keeps it so: the graph changes by requests
only. -/
theorem Ongoing.stride {last : Nat}
    (hrequests : ResolvesWithin S.problem.requests pairs)
    (hs : Ongoing pairs last s) (h : Stride S s s') :
    Ongoing pairs last s' := by
  cases h with
  | move hmove =>
    cases hmove with
    | serve edge d =>
      have hs : Ongoing pairs last
        { s with evaluations := s.evaluations + 1 } :=
        ⟨hs.uncancelled, hs.bounded⟩
      exact hs.serveAll (hrequests _ edge d)
    | _ => exact ⟨hs.uncancelled, hs.bounded⟩
  | _ => exact ⟨hs.uncancelled, hs.bounded⟩

end Solver

-- =========================================================== complete runs

/-- Where an analysis starts from: procedures with bodies, starts of
procedures, and one at least. Anything else is refused before the loop. -/
structure Program.Starts (P : Program) (entries : List Proc)
    (nodes : List Node) : Prop where
  entry : ∀ p ∈ entries, ∃ start, P.graph.start? p = some start
  seed : ∀ n ∈ nodes, P.graph.icfg.isStart? n = some true
  nonempty : entries ≠ [] ∨ nodes ≠ []

/-- Given enough fuel, solving ends with complete results, and they are
the given ones. More fuel makes no difference to them. -/
def Solver.EndsIn {D W L : Type} [DecidableEq D] [DecidableEq W] [DecidableEq L]
    (S : Setup D W L) (graph : FlowGraph) (r : Results D L) : Prop :=
  r.status = .complete ∧ ∃ enough, ∀ fuel, enough ≤ fuel →
    (solve S fuel graph).1 = .ok r

open Solver

variable {W L : Type} [DecidableEq L]

namespace Analyzes

/-- The facts that a run can meet: zero, those of the seeds, and the
variables of the program. -/
def facts (P : Program) (S : Setup LocalFact W L) : List LocalFact :=
  .zero :: S.problem.seeds.map Seed.fact ++ P.vars.map .var

/-- What a run keeps: its tables are about the program, and it goes on.
The bound on the revision is that of the graph before the run. -/
def Sustained (P : Program) (S : Setup LocalFact W L)
    (pairs : Finset (Node × Proc)) (s : State LocalFact W L) : Prop :=
  Kept S (S.view P.graph) s ∧ Contained (S.view P.graph) (facts P S) s ∧
    Ongoing pairs (P.graph.revision + P.graph.unresolved pairs) s

/-- The failures that are not ruled out before a run: gaps in its
tables. These are ruled out by what its tables hold. -/
def IsGap (failure : Failure LocalFact W L) : Prop :=
  ∃ gap, failure = .rejected (.inconsistent gap)

variable {steps : List Draft.Step} {S : Setup LocalFact W L}
variable {pairs : Finset (Node × Proc)}

section Built

variable (hS : Analyzes (Draft.ofSteps steps).build S)

include hS

/-- Flow functions of an analysis answer with facts among these. -/
theorem confines_facts : S.Confines (facts (Draft.ofSteps steps).build S) :=
  hS.confines List.mem_cons_self fun x hx =>
    List.mem_append_right _ (List.mem_map.mpr ⟨x, hx, rfl⟩)

/-- Right after the seeds were planted, all of it holds. -/
theorem sustained_of_sown
    (hwf : (S.view (Draft.ofSteps steps).build.graph).WellFormed)
    {s : State LocalFact W L} (hs : Sown S (Draft.ofSteps steps).build.graph
      (S.seedsOn (S.view (Draft.ofSteps steps).build.graph)) s) :
    Sustained (Draft.ofSteps steps).build S pairs s := by
  refine ⟨hs.kept, hs.contained hwf fun seed hseed => ?_, hs.uncancelled, ?_⟩
  · rcases List.mem_append.mp hseed with h | h
    · obtain ⟨n, _, rfl⟩ := List.mem_map.mp h
      show S.problem.zero ∈ _
      rw [hS.zero_eq]
      exact List.mem_cons_self
    · exact List.mem_append_left _
        (List.mem_cons_of_mem _ (List.mem_map.mpr ⟨seed, h, rfl⟩))
  · rw [hs.graph_eq]

/-- A run may begin: its entries have starts, its seeds are at starts,
and planting them joins nothing that is refused. -/
theorem admits (E : Failure LocalFact W L → Prop)
    (hstarts : (Draft.ofSteps steps).build.Starts S.problem.entries
      (S.problem.seeds.map Seed.node)) :
    Admits S (S.view (Draft.ofSteps steps).build.graph) E where
  lattice := by
    intro v hv
    rw [hS.isSemilattice.violation?_eq_none hS.extremes] at hv
    cases hv
  noSeeds := by
    intro hentries hseeds
    rw [hentries, hseeds] at hstarts
    exact hstarts.nonempty.elim (absurd rfl) (absurd rfl)
  entry := by
    intro p hp hnone
    obtain ⟨start, hstart⟩ := hstarts.entry p hp
    rw [hS.view_eq] at hnone
    cases hnone.symm.trans hstart
  seed := by
    intro x hx hfalse
    rw [hS.view_eq, hstarts.seed x.node
        (List.mem_map.mpr ⟨x, hx, rfl⟩)] at hfalse
    cases hfalse
  unowned := by
    intro x hx hnone
    rw [hS.view_eq, hstarts.seed x.node
        (List.mem_map.mpr ⟨x, hx, rfl⟩)] at hnone
    cases hnone
  regress := by
    intro e f g _ hbad
    rw [hS.isUpperBound f g] at hbad
    cases hbad

/-- No gap in the tables is one that a sound run can have. The graph of
a program has an owner for every node that is met. -/
theorem not_excused {failure : Failure LocalFact W L} (hgap : IsGap failure) :
    ¬failure.Excused (S.view (Draft.ofSteps steps).build.graph) := by
  obtain ⟨gap, rfl⟩ := hgap
  rw [hS.view_eq]
  have howners : (Draft.ofSteps steps).build.graph.OwnersStart :=
    FlowGraph.ownersStart_empty.mutateAll (Draft.ofSteps steps).layout
  exact howners.not_excused gap

variable (hsteps : Draft.IsProper steps)

include hsteps

/-- The graph of a program is well formed. -/
theorem wellFormed : (S.view (Draft.ofSteps steps).build.graph).WellFormed := by
  rw [hS.view_eq]
  exact hsteps.isLaidOut.wellFormed

/-- Every question that a run asks has an answer. It asks about nodes
of the program, and these have statements; an answer is missing where
there is none. -/
theorem not_unanswered {facts : List LocalFact} {s : State LocalFact W L}
    {fault : Fault}
    (hkept : Kept S (S.view (Draft.ofSteps steps).build.graph) s)
    (hs : Contained (S.view (Draft.ofSteps steps).build.graph) facts s) :
    ¬Unanswered S s fault := by
  have hstmt : ∀ {n}, Owned (S.view (Draft.ofSteps steps).build.graph) n →
      ∃ t, (Draft.ofSteps steps).build.stmts.get? n = some t := by
    intro n hn
    rw [hS.view_eq] at hn
    obtain ⟨p, hp⟩ := hn
    exact Draft.exists_stmt_of_procOf? (Draft.isNumbered_ofSteps steps) hp
  -- one case for each question that a run can ask
  intro h
  cases h with
  | isIdentity he herror =>
    obtain ⟨t, ht⟩ := hstmt (hs.owned he)
    obtain ⟨b, hb⟩ := hS.exists_isIdentityAt ht
    rw [hb] at herror
    cases herror
  | @flow e edge _ he hsource hkind herror =>
    obtain ⟨t, ht⟩ := hstmt (hs.owned he)
    rw [← hsource] at ht
    obtain ⟨answer, hanswer⟩ := hS.exists_flow e.target ht hkind
    rw [hanswer] at herror
    cases herror
  | @back i k r _ hi hk herror =>
    obtain ⟨t, ht⟩ := hstmt (hs.site hi)
    obtain ⟨u, hu⟩ := hstmt (hs.exit hk)
    obtain ⟨answer, hanswer⟩ :=
      hS.exists_returnFlow k.proc r k.exitFact i.callFact ht hu
    rw [hanswer] at herror
    cases herror
  | owner he hnone =>
    obtain ⟨p, hp⟩ := hs.owned he
    rw [hkept.origin.procOf?, hp] at hnone
    cases hnone
  | exit he hnone =>
    obtain ⟨p, hp⟩ := hs.owned he
    have hknown := (hS.wellFormed hsteps).exit_known hp
    rw [← hkept.origin.isExit?, hnone] at hknown
    cases hknown

/-- A run that resolves calls among the pairs can be relied on to go
on: one step keeps `Sustained`, and can only fail by a gap. -/
theorem guards (hrequests : ResolvesWithin S.problem.requests pairs) :
    Guards S (S.view (Draft.ofSteps steps).build.graph)
      (Sustained (Draft.ofSteps steps).build S pairs) IsGap := by
  refine guards_of_contained (Setup.isSteady_of_view_eq hS.view_eq)
    (hS.wellFormed hsteps) hS.confines_facts (fun hs h => hs.stride hrequests h)
    (fun _ _ _ _ hs => ⟨hs.uncancelled, hs.bounded⟩) (fun gap => ⟨gap, rfl⟩)
    (fun hkept hs h => absurd h (hS.not_unanswered hsteps hkept hs))
      fun e f g _ hbad => ?_
  rw [hS.isUpperBound f g] at hbad
  cases hbad

variable [DecidableEq W]

/-- Every run of an analysis has results. They are incomplete only if
there was a reason to stop, and then at a moment of the run itself. -/
theorem exists_solved
    (hstarts : (Draft.ofSteps steps).build.Starts S.problem.entries
      (S.problem.seeds.map Seed.node))
    (hrequests : ResolvesWithin S.problem.requests pairs) :
    ∃ r, (∃ enough, ∀ fuel, enough ≤ fuel →
        (solve S fuel (Draft.ofSteps steps).build.graph).1 = .ok r) ∧
      ∀ reason, r.status = .incomplete reason →
        ∃ s₀, Sustained (Draft.ofSteps steps).build S pairs s₀ ∧
          stopReason? S s₀ = some reason := by
  obtain ⟨rank, bound, hrank⟩ := hS.exists_rank
  obtain ⟨valueRank, height, hvalues⟩ := hS.exists_valueRank
  have hnodes : ∀ {n}, Owned (S.view (Draft.ofSteps steps).build.graph) n →
      n ∈ (Draft.ofSteps steps).build.graph.owner.keys := by
    intro n hn
    rw [hS.view_eq] at hn
    exact Table.mem_keys.mpr hn
  have hlast : ∀ {s}, Sustained (Draft.ofSteps steps).build S pairs s →
      (S.view s.graph).revision ≤ (Draft.ofSteps steps).build.graph.revision +
        (Draft.ofSteps steps).build.graph.unresolved pairs := by
    intro s hs
    rw [hS.view_eq]
    exact Nat.le_trans (Nat.le_add_right _ _) hs.2.2.bounded
  have hhalts := halts_run (hS.wellFormed hsteps) (hS.admits IsGap hstarts)
    (hS.guards hsteps hrequests) (hS.sustained_of_sown (hS.wellFormed hsteps))
      (fun hs => hs.2.1)
    hnodes hrank hlast hS.isSemilattice hvalues
  obtain ⟨enough, hmore, hends⟩ := exists_enough hhalts
  rcases hends with ⟨r, _, hr, hreason⟩ | ⟨failure, _, hgap, hexcused⟩
  · exact ⟨r, ⟨enough, fun fuel hfuel => by rw [hmore fuel hfuel, hr]⟩, hreason⟩
  · exact absurd hexcused (hS.not_excused hgap)

/-- Every run of an analysis that nothing stops comes to its end.
Without a limit, a deadline or a request to stop, there is no such
reason. -/
theorem exists_complete
    (hstarts : (Draft.ofSteps steps).build.Starts S.problem.entries
      (S.problem.seeds.map Seed.node)) (hfree : Unlimited S.config S.world)
    (hrequests : ResolvesWithin S.problem.requests pairs) :
    ∃ r, EndsIn S (Draft.ofSteps steps).build.graph r := by
  obtain ⟨r, henough, hreason⟩ := hS.exists_solved hsteps hstarts hrequests
  refine ⟨r, ?_, henough⟩
  cases hstatus : r.status with
  | complete => rfl
  | incomplete reason =>
    obtain ⟨s₀, hs₀, hstop⟩ := hreason reason hstatus
    rw [hfree.stopReason? hs₀.2.2.uncancelled] at hstop
    cases hstop

end Built

end Analyzes

/-- Seeds of plain facts are at the same nodes once they carry values. -/
theorem Uninitialized.starts_seeded {P : Program} {entries : List Proc}
    {seeds : List (Node × LocalFact)}
    {requests : Nat → FlowEdge → LocalFact → List Request} {config : Config}
    {world : World} (h : P.Starts entries (seeds.map Prod.fst)) :
    P.Starts entries
      ((seeded P entries seeds requests config world).problem.seeds.map
        Seed.node) := by
  have hnodes :
      ((seeds.map fun x => Seed.mk x.1 x.2 Binary.top).map Seed.node) =
      seeds.map Prod.fst := by
    rw [List.map_map]
    rfl
  exact hnodes ▸ h

/-- Linear constant propagation and the analysis of uninitialized
variables come to their ends on every program, from wherever they start
and in either order, also if they resolve calls on the way that are
drawn from a finite set. -/
theorem analyses_complete {steps : List Draft.Step}
    (hsteps : Draft.IsProper steps) (entries : List Proc) {config : Config}
    {world : World} (hfree : Unlimited config world)
    {pairs : Finset (Node × Proc)}
    {requests : Nat → FlowEdge → LocalFact → List Request}
    (hrequests : ResolvesWithin requests pairs) :
    (∀ seeds : List (Seed LocalFact ConstValue),
      (Draft.ofSteps steps).build.Starts entries (seeds.map Seed.node) →
      ∃ r, EndsIn
        (LinearConstants.seeded (Draft.ofSteps steps).build entries seeds
          requests config world) (Draft.ofSteps steps).build.graph r) ∧
    ∀ seeds : List (Node × LocalFact),
      (Draft.ofSteps steps).build.Starts entries (seeds.map Prod.fst) →
      ∃ r, EndsIn
        (Uninitialized.seeded (Draft.ofSteps steps).build entries seeds requests
          config world) (Draft.ofSteps steps).build.graph r := by
  constructor
  · intro seeds hstarts
    exact (LinearConstants.analyzes ..).exists_complete hsteps hstarts
      hfree hrequests
  · intro seeds hstarts
    exact (Uninitialized.analyzes ..).exists_complete hsteps
      (Uninitialized.starts_seeded hstarts) hfree hrequests

/-- A procedure that calls itself with a parameter that grows, and a
call without a target. -/
def counting : List Draft.Step := [
  .declare "main" [],
  .declare "count" ["p"],
  .write ⟨0⟩ (.const "x" Word.zero),
  .write ⟨0⟩ (.call .indirect ["x"] none),
  .write ⟨1⟩ .nop,
  .write ⟨1⟩ (.linear "q" "p" Word.one Word.one),
  .write ⟨1⟩ (.call (.direct ⟨1⟩) ["q"] none),
  .write ⟨1⟩ (.ret none),
  .branch ⟨1⟩ ⟨2⟩ ⟨5⟩]

theorem isProper_counting : Draft.IsProper counting :=
  ⟨Draft.answered_of_isOk (by decide +kernel), by decide⟩

/-- The target comes up on the way to the call. -/
def countingRequests (_ : Nat) (edge : FlowEdge) (_ : LocalFact) :
    List Request :=
  if edge.source = ⟨0⟩ then [.resolve ⟨1⟩ ⟨1⟩] else []

/-- From zero at the one procedure and the parameter at the other. -/
theorem analyses_complete_counting :
    (Draft.ofSteps counting).build.graph.callees ⟨1⟩ = [] ∧
    (Draft.ofSteps counting).build.graph.callees ⟨4⟩ = [⟨1⟩] ∧
    (∃ r, EndsIn
      (LinearConstants.seeded (Draft.ofSteps counting).build [⟨0⟩]
        [⟨⟨2⟩, .var "p", .const Word.one⟩] countingRequests
          { order := .lifo } {})
      (Draft.ofSteps counting).build.graph r) ∧
    ∃ r, EndsIn
      (Uninitialized.seeded (Draft.ofSteps counting).build [⟨0⟩]
        [(⟨2⟩, .var "p")] countingRequests { order := .lifo } {})
      (Draft.ofSteps counting).build.graph r := by
  have hrequests : ResolvesWithin countingRequests {(⟨1⟩, ⟨1⟩)} := by
    intro k edge d r hr
    unfold countingRequests at hr
    split at hr
    · exact ⟨_, Finset.mem_singleton_self _, List.mem_singleton.mp hr⟩
    · exact absurd hr List.not_mem_nil
  have hfree : Unlimited { order := .lifo } {} := ⟨rfl, rfl, fun _ => rfl⟩
  have hstarts : (Draft.ofSteps counting).build.Starts [⟨0⟩] [⟨2⟩] := by
    refine ⟨fun p hp => ?_, by decide +kernel, Or.inl nofun⟩
    rw [List.mem_singleton.mp hp]
    exact ⟨⟨0⟩, by decide +kernel⟩
  have h := analyses_complete isProper_counting [⟨0⟩] hfree hrequests
  exact ⟨by decide +kernel, by decide +kernel, h.1 _ hstarts, h.2 _ hstarts⟩

end Tabulation
