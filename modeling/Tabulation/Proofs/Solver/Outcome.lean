/-
What a whole run amounts to.

A run checks the lattice, plants the seeds, goes through the loop,
computes values and hands out a report. `Finished` is what the first
three leave behind when the loop ends by itself: sound tables, closed
under the rules, that hold the seeds. The value phase only reads these
tables, and the report lists exactly the facts that path edges end in
(`value?_of_report`).

So a statement about the answers of a run comes down to one about
finished tables (`completed_of_solve`).
-/
import Mathlib.Data.List.Basic
import Tabulation.Proofs.Solver.Loop
import Tabulation.Solver.Solve

namespace Tabulation.Results

variable {D L : Type} [DecidableEq D]

/-- A fact holds if it has a value. Rows have a value for every fact
that they list, whether or not values were computed. -/
theorem holdsFact_eq_reachable_iff {r : Results D L} {n : Node} {d : D} :
    r.holdsFact n d = .reachable ↔ ∃ v, r.value? n d = some v := by
  unfold holdsFact
  cases r.value? n d with
  | some v => simp
  | none => cases r.status <;> simp

/-- After a complete run a fact that does not hold cannot hold. After
any other run that is left open. -/
theorem holdsFact_eq_unreachable_iff {r : Results D L}
    (h : r.status = .complete) {n : Node} {d : D} :
    r.holdsFact n d = .unreachable ↔ r.value? n d = none := by
  unfold holdsFact
  rw [h]
  cases r.value? n d <;> simp

/-- Two complete runs that agree on what holds agree altogether. -/
theorem holdsFact_congr {r r' : Results D L} (h : r.status = .complete)
    (h' : r'.status = .complete) {n : Node} {d : D}
    (hiff : r.holdsFact n d = .reachable ↔ r'.holdsFact n d = .reachable) :
    r.holdsFact n d = r'.holdsFact n d := by
  unfold holdsFact at hiff ⊢
  rw [h, h'] at hiff ⊢
  cases hv : r.value? n d with
  | some v =>
    rw [hv] at hiff
    exact (hiff.mp rfl).symm
  | none =>
    rw [hv] at hiff
    cases hv' : r'.value? n d with
    | some v' =>
      rw [hv'] at hiff
      exact hiff.mpr rfl
    | none => rfl

end Tabulation.Results

namespace Tabulation.Solver

open Supergraph

variable {D W L : Type} [DecidableEq D]
variable {S : Setup D W L} {le : W → W → Prop} {I₀ : Icfg} {graph : FlowGraph}
variable {s s' : State D W L}

-- =============================================================== planting

/-- Tables with seeds planted, before the loop begins. Everything is
still pending, so the rules are not asked for yet. -/
structure Planted (S : Setup D W L) (le : W → W → Prop) (I₀ : Icfg)
    (graph : FlowGraph) (seeds : List (Seed D L)) (s : State D W L) : Prop where
  sound : Sound S I₀ s
  graph_eq : S.problem.IsPure → s.graph = graph
  seeds_eq : s.seeds = seeds
  pending : ∀ {e w}, s.jump? e = some w → e ∈ s.worklist
  known_eq : s.known = []
  seen : s.seenRevision ≤ (S.view s.graph).revision
  present : ∀ seed ∈ seeds,
    AtLeast le s ⟨seed.fact, seed.node, seed.fact⟩ S.identity
  atStart : ∀ seed ∈ seeds, I₀.isStart? seed.node = some true

private theorem planted_start :
    Planted S le (S.view graph) graph [] (State.start S graph) := by
  have hjump : ∀ {e w}, (State.start S graph).jump? e ≠ some w :=
    fun h => nomatch h
  refine ⟨⟨.refl _, fun h => absurd h hjump, ?_, ?_, ?_, ?_, ?_⟩, fun _ => rfl,
    rfl, fun h => absurd h hjump, rfl, Nat.zero_le _, ?_, ?_⟩
  · exact fun h => absurd h List.not_mem_nil
  · exact fun h => nomatch h
  · exact fun h => nomatch h
  · exact fun h => absurd h List.not_mem_nil
  · exact fun h => absurd h List.not_mem_nil
  · exact fun _ h => absurd h List.not_mem_nil
  · exact fun _ h => absurd h List.not_mem_nil

section Phases

variable [DecidableEq W] [DecidableEq L]

/-- Planting one seed more. A seed that is there already is joined with
the identity, and stays pending. -/
theorem ensures_plant (hle : S.IsGrowthOrder le) {seeds : List (Seed D L)}
    {seed : Seed D L} (hs : Planted S le I₀ graph seeds s)
    (hseed : seed ∈ S.seedsOn I₀) (hstart : I₀.isStart? seed.node = some true) :
    Ensures (Failure.Excused I₀) (plant S seed)
      (fun _ s' => Planted S le I₀ graph (seeds ++ [seed]) s') s := by
  unfold plant
  refine Ensures.modify_bind ?_
  have hs₁ : Sound S I₀
    { s.intern [seed.fact] with seeds := s.seeds ++ [seed] } :=
    ⟨hs.sound.origin, hs.sound.jump, hs.sound.worklist, hs.sound.summary,
    hs.sound.callFlow, hs.sound.incoming, hs.sound.known⟩
  have hder : Derivable S (S.view s.graph) ⟨seed.fact, seed.node, seed.fact⟩
      S.identity := by
    refine .seed ?_
    rw [seedsOn_congr S hs.sound.origin.start?]
    exact hseed
  refine (ensures_propagate hle hs₁ hder none).mono fun _ s' h => ?_
  obtain ⟨hA, hatLeast⟩ := h
  refine ⟨hA.sound, fun hp => (hA.graph hp).trans (hs.graph_eq hp), ?_, ?_,
    hA.known.trans hs.known_eq, ?_, ?_, ?_⟩
  · rw [hA.seeds, ← hs.seeds_eq]
  · intro e w hw
    -- what has not changed was pending before; what has is queued
    rcases hA.changed e with heq | hmem
    · rw [heq] at hw
      exact hA.worklist (hs.pending hw)
    · exact hmem
  · rw [hA.seenRevision]
    exact Nat.le_trans hs.seen hA.view.revision
  · intro seed' hmem
    rcases List.mem_append.mp hmem with hmem | hmem
    · obtain ⟨w, hw, hgrow⟩ := hs.present seed' hmem
      obtain ⟨w', hw', hgrow'⟩ := hA.jump hw
      exact ⟨w', hw', hle.trans hgrow hgrow'⟩
    · rw [List.mem_singleton.mp hmem]
      exact hatLeast
  · intro seed' hmem
    rcases List.mem_append.mp hmem with hmem | hmem
    · exact hs.atStart seed' hmem
    · rw [List.mem_singleton.mp hmem]
      exact hstart

omit [DecidableEq D] [DecidableEq W] [DecidableEq L] in
/-- Planting member after member of a list, where each member may stand
for several seeds or for none. -/
theorem ensures_plantEach {E : Failure D W L → Prop}
    {P : List (Seed D L) → State D W L → Prop} {β : Type}
    {f : β → SolverM D W L Unit} {g : β → List (Seed D L)} {l : List β}
    (hstep : ∀ x ∈ l, ∀ seeds s, P seeds s →
      Ensures E (f x) (fun _ s' => P (seeds ++ g x) s') s)
    {seeds : List (Seed D L)} (hs : P seeds s) :
    Ensures E (l.forM f) (fun _ s' => P (seeds ++ l.flatMap g) s') s := by
  induction l generalizing s seeds with
  | nil =>
    rw [List.flatMap_nil, List.append_nil]
    exact Ensures.pure hs
  | cons x l ih =>
    refine (hstep x List.mem_cons_self seeds s hs).bind fun _ s₁ h₁ => ?_
    rw [List.flatMap_cons, ← List.append_assoc]
    exact ih (fun y hy => hstep y (List.mem_cons_of_mem _ hy)) h₁

/-- An entry is planted at the start of its procedure, if it has one.
If it has none, the run is refused. -/
theorem ensures_plantEntry (hle : S.IsGrowthOrder le)
    (hown : ∀ {p : Proc} {n : Node}, I₀.start? p = some n →
      I₀.procOf? n = some p) {p : Proc} (hp : p ∈ S.problem.entries)
    (seeds : List (Seed D L)) (s : State D W L)
    (hs : Planted S le I₀ graph seeds s) :
    Ensures (Failure.Excused I₀) (plantEntry S p)
      (fun _ s' => Planted S le I₀ graph
        (seeds ++ ((I₀.start? p).map fun node =>
          { node, fact := S.problem.zero, value := S.problem.initial }).toList)
        s') s := by
  unfold plantEntry
  refine Ensures.get_bind ?_
  rw [hs.sound.origin.start?]
  cases hstart : I₀.start? p with
  | none => exact Ensures.throw trivial
  | some n =>
    refine ensures_plant hle hs ?_ ?_
    · refine List.mem_append_left _ (List.mem_map.mpr ⟨n, ?_, rfl⟩)
      exact List.mem_filterMap.mpr ⟨p, hp, hstart⟩
    · show (I₀.procOf? n).map _ = some true
      rw [hown hstart, Option.map_some, hstart, decide_eq_true rfl]

theorem ensures_plantSeed (hle : S.IsGrowthOrder le) {seed : Seed D L}
    (hseed : seed ∈ S.problem.seeds) (seeds : List (Seed D L)) (s : State D W L)
    (hs : Planted S le I₀ graph seeds s) :
    Ensures (Failure.Excused I₀) (plantSeed S seed)
      (fun _ s' => Planted S le I₀ graph (seeds ++ [seed]) s') s := by
  unfold plantSeed
  refine Ensures.get_bind ?_
  refine (ensures_askOf seed.node _).bind fun isStart s₁ h => ?_
  obtain ⟨rfl, hstart⟩ := h
  rw [hs.sound.origin.isStart?] at hstart
  cases isStart with
  | true => exact ensures_plant hle hs (List.mem_append_right _ hseed) hstart
  | false => exact Ensures.throw trivial

omit [DecidableEq D] [DecidableEq W] [DecidableEq L] in
/-- The seeds of a problem, entry by entry and seed by seed. This is
the order in which they are planted. -/
theorem seedsOn_eq (S : Setup D W L) (I : Icfg) :
    S.seedsOn I =
      S.problem.entries.flatMap (fun p => ((I.start? p).map fun node =>
        { node, fact := S.problem.zero, value := S.problem.initial }).toList) ++
        S.problem.seeds.flatMap fun seed => [seed] := by
  unfold Setup.seedsOn
  rw [List.map_filterMap, List.filterMap_eq_flatMap_toList,
      List.flatMap_singleton']

/-- Afterwards the seeds are planted that the problem has on this
graph, in the order in which the problem lists them. -/
theorem ensures_plantAll (hle : S.IsGrowthOrder le)
    (hown : ∀ {p : Proc} {n : Node}, I₀.start? p = some n →
      I₀.procOf? n = some p) (hs : Planted S le I₀ graph [] s) :
    Ensures (Failure.Excused I₀) (plantAll S)
      (fun _ s' => Planted S le I₀ graph (S.seedsOn I₀) s') s := by
  unfold plantAll
  split
  · exact Ensures.throw trivial
  · refine (ensures_plantEach (fun p hp => ensures_plantEntry hle hown hp)
      hs).bind fun _ s₁ h₁ => ?_
    refine (ensures_plantEach (fun seed hseed => ensures_plantSeed hle hseed)
      h₁).bind fun _ s₂ h₂ => ?_
    rw [List.nil_append, ← seedsOn_eq] at h₂
    refine Ensures.get_bind (Ensures.modify ?_)
    have hsound := h₂.sound
    exact ⟨⟨hsound.origin, hsound.jump, hsound.worklist, hsound.summary,
      hsound.callFlow, hsound.incoming, hsound.known⟩, h₂.graph_eq,
      h₂.seeds_eq, h₂.pending,
      h₂.known_eq, Nat.le_refl _, h₂.present, h₂.atStart⟩

-- ======================================================== the first phase

variable (S) in
/-- Check the lattice and plant the seeds. The first two parts of a run
are put together, since every statement about the loop begins after
both. -/
def begin : SolverM D W L Unit := do
  validate S
  plantAll S

/-- What planting a seed keeps is kept by a run that begins. Whether a
seed may be planted at all does not matter here. -/
theorem ensures_begin_of {P : State D W L → Prop}
    (hstart : P (State.start S graph))
    (hplant : ∀ seed s, P s →
      Ensures (fun _ => True) (plant S seed) (fun _ s' => P s') s)
    (hseen : ∀ {s}, P s → ∀ revision, P { s with seenRevision := revision }) :
    Ensures (fun _ => True) (begin S) (fun _ s' => P s')
      (State.start S graph) := by
  have hvalid : Ensures (fun _ => True) (validate S)
      (fun _ s' => s' = State.start S graph) (State.start S graph) := by
    unfold validate
    split
    · exact Ensures.throw trivial
    · exact Ensures.pure rfl
  have hentry : ∀ p s, P s →
      Ensures (fun _ => True) (plantEntry S p) (fun _ s' => P s') s := by
    intro p s hs
    unfold plantEntry
    refine Ensures.get_bind ?_
    split
    · exact hplant _ s hs
    · exact Ensures.throw trivial
  have hseed : ∀ seed s, P s →
      Ensures (fun _ => True) (plantSeed S seed) (fun _ s' => P s') s := by
    intro seed s hs
    unfold plantSeed
    refine Ensures.get_bind ?_
    cases (S.view s.graph).isStart? seed.node with
    | none => exact Ensures.throw trivial
    | some isStart =>
      cases isStart with
      | true => exact hplant seed s hs
      | false => exact Ensures.throw trivial
  refine hvalid.bind fun _ s₁ h => ?_
  rw [h]
  unfold plantAll
  split
  · exact Ensures.throw trivial
  · refine (Ensures.forM_keep hstart fun p _ => hentry p).bind fun _ s₁ h₁ => ?_
    refine (Ensures.forM_keep h₁ fun seed _ => hseed seed).bind
      fun _ s₂ h₂ => ?_
    exact Ensures.get_bind (Ensures.modify (hseen h₂ _))

/-- Tables with nothing left to follow: sound, closed, and with the
seeds on record. -/
structure Finished (S : Setup D W L) (le : W → W → Prop) (graph : FlowGraph)
    (met : PathEdge D → Proc → Prop) (s : State D W L) : Prop where
  sound : Sound S (S.view graph) s
  closed : Closed S le met (fun _ => False) s
  exists_met : ∀ {e w g}, s.jump? e = some w →
    (S.view s.graph).isCall e.node = true →
    g ∈ (S.view s.graph).callees e.node → ∃ e', e'.node = e.node ∧ met e' g
  graph_eq : S.problem.IsPure → s.graph = graph
  seeds_eq : s.seeds = S.seedsOn (S.view graph)
  present : ∀ seed ∈ S.seedsOn (S.view graph),
    AtLeast le s ⟨seed.fact, seed.node, seed.fact⟩ S.identity
  atStart : ∀ seed ∈ S.seedsOn (S.view graph),
    (S.view graph).isStart? seed.node = some true

/-- A run that begins does so with its seeds planted, those of entries
first. -/
theorem ensures_begin (hle : S.IsGrowthOrder le)
    (hown : ∀ {p : Proc} {n : Node}, (S.view graph).start? p = some n →
      (S.view graph).procOf? n = some p) :
    Ensures (Failure.Excused (S.view graph)) (begin S)
      (fun _ s' => Planted S le (S.view graph) graph (S.seedsOn (S.view graph))
        s') (State.start S graph) := by
  have hvalid : Ensures (Failure.Excused (S.view graph)) (validate S)
      (fun _ s' => s' = State.start S graph) (State.start S graph) := by
    unfold validate
    split
    · exact Ensures.throw trivial
    · exact Ensures.pure rfl
  refine hvalid.bind fun _ s₁ h => ?_
  rw [h]
  exact ensures_plantAll hle hown planted_start

omit [DecidableEq W] [DecidableEq L] in
/-- What was planted is pending, so the rules hold of everything else,
whatever was met. -/
theorem Planted.inProgress {seeds : List (Seed D L)}
    (hs : Planted S le I₀ graph seeds s) (met : PathEdge D → Proc → Prop) :
    InProgress S le I₀ met (· ∈ s.worklist) s := by
  refine ⟨hs.sound,
    ⟨fun hf h => absurd (hs.pending hf) h,
      fun hf _ h _ => absurd (hs.pending hf) h⟩, hs.seen,
    fun hk => ?_, fun hw _ _ => Or.inr (Or.inl (hs.pending hw))⟩
  rw [hs.known_eq] at hk
  exact absurd hk List.not_mem_nil

/-- A loop that ends by itself leaves finished tables. `met` may be any
callees that were there from the beginning; those that the loop meets
are added. -/
theorem finished_of_tabulate (hle : S.IsGrowthOrder le) (hsteady : S.IsSteady)
    (hown : ∀ {p : Proc} {n : Node}, (S.view graph).start? p = some n →
      (S.view graph).procOf? n = some p)
    (met : PathEdge D → Proc → Prop) {fuel : Nat} {s₁ : State D W L}
    (hbegin : begin S (State.start S graph) = .ok () s₁)
    (hmet : ∀ {e g}, met e g → g ∈ (S.view s₁.graph).callees e.node)
    (hloop : tabulate S fuel s₁ = .ok .complete s) :
    Finished S le graph (fun e g => met e g ∨ Meets S fuel s₁ e g) s := by
  have hs₁ := (ensures_begin hle hown).of_ok hbegin
  have h := (ensures_tabulate hle hsteady hown fuel (hs₁.inProgress met)
      hmet).of_ok hloop
  obtain ⟨hlater, hsound, hend⟩ := h
  obtain ⟨hprogress, hseen⟩ := hend rfl
  refine ⟨hsound, hprogress.closed, hprogress.aware.exists_met hseen,
    fun hp => (hlater.graph hp).trans (hs₁.graph_eq hp), ?_, ?_, hs₁.atStart⟩
  · rw [hlater.seeds, hs₁.seeds_eq]
  · exact fun seed hseed => (hs₁.present seed hseed).later hle hlater

/-- Where nothing is asked for, finished tables are saturated. No call
site got a callee that some path edge has not met. -/
theorem saturated_of_isPure (hle : S.IsGrowthOrder le)
    (hpure : S.problem.IsPure)
    (hown : ∀ {p : Proc} {n : Node}, (S.view graph).start? p = some n →
      (S.view graph).procOf? n = some p) {fuel : Nat} {s₁ : State D W L}
    (hbegin : begin S (State.start S graph) = .ok () s₁)
    (hloop : tabulate S fuel s₁ = .ok .complete s) :
    Saturated S le s ∧ ∃ met, Finished S le graph met s := by
  have hgraph : s₁.graph = graph :=
    ((ensures_begin hle hown).of_ok hbegin).graph_eq hpure
  have hs := finished_of_tabulate hle (Setup.isSteady_of_isPure hpure) hown
    (fun e g => g ∈ (S.view graph).callees e.node) hbegin
      (by rw [hgraph]; exact id) hloop
  refine ⟨?_, _, hs⟩
  unfold Saturated
  rw [hs.graph_eq hpure]
  exact hs.closed.weaken Or.inl

omit [DecidableEq W] [DecidableEq L] in
/-- In finished tables, the summaries are the jump functions at the
exits. -/
theorem Finished.summary_iff {le : W → W → Prop}
    {met : PathEdge D → Proc → Prop} (hs : Finished S le graph met s)
    (hsaturated : Saturated S le s) (hgraph : s.graph = graph)
    {k : SummaryEdge D} {h : W} :
    s.summaries.get? k = some h ↔ (S.view graph).Leaves k.exit k.proc ∧
      s.jump? ⟨k.entry, k.exit, k.exitFact⟩ = some h := by
  have hsummary : ∀ {f}, (S.view graph).Leaves k.exit k.proc →
      s.jump? ⟨k.entry, k.exit, k.exitFact⟩ = some f →
      s.summaries.get? k = some f := by
    intro f hleave hf
    rw [← hgraph] at hleave
    exact (hsaturated.followed hf id).exit hleave
  constructor
  · intro hk
    obtain ⟨hleave, hderivable⟩ := hs.sound.summary hk
    have hseeds : ∀ seed ∈ S.seedsOn (S.view s.graph),
        Recorded s ⟨seed.fact, seed.node, seed.fact⟩ := by
      rw [hgraph]
      exact fun seed hseed => (hs.present seed hseed).recorded
    obtain ⟨f, hf⟩ := recorded_of_derivable hsaturated.stable hseeds hderivable
    rw [hgraph] at hleave
    refine ⟨hleave, ?_⟩
    rw [hf, ← hsummary hleave hf, hk]
  · exact fun h => hsummary h.1 h.2

/-- To see that a run returns, look at something it returns. Results as
a whole are too large to be compared by evaluation. -/
theorem exists_ok_of_map {ε α β : Type} {x : Except ε α} {f : α → β} {b : β}
    (h : x.toOption.map f = some b) : ∃ a, x = .ok a ∧ f a = b := by
  cases x with
  | error e => cases h
  | ok a => exact ⟨a, rfl, Option.some.inj h⟩

-- ============================================================== the parts

/-- The parts of a run that returns results: it begins, loops, computes
values and reports, and each of these runs through. -/
theorem parts_of_run {fuel : Nat} {s₀ : State D W L} {r : Results D L}
    (h : run S fuel s₀ = .ok r s') :
    ∃ s₁ s₂ s₃ status values, begin S s₀ = .ok () s₁ ∧
      tabulate S fuel s₁ = .ok status s₂ ∧
      valuePhase S fuel status s₂ = .ok values s₃ ∧
      report S status values s₃ = .ok r s' := by
  unfold run at h
  rw [← bind_assoc] at h
  obtain ⟨_, s₁, hbegin, h⟩ := bind_eq_ok h
  obtain ⟨status, s₂, hloop, h⟩ := bind_eq_ok h
  obtain ⟨values, s₃, hvalues, hreport⟩ := bind_eq_ok h
  exact ⟨s₁, s₂, s₃, status, values, hbegin, hloop, hvalues, hreport⟩

/-- Parts that run through make up a solution. The fuel is the same for
the loop and for the values. -/
theorem solve_of_parts {fuel : Nat} {s₁ s₂ s₃ : State D W L} {status : Status}
    {values : Option (Grid Node D L)} {r : Results D L}
    (hbegin : begin S (State.start S graph) = .ok () s₁)
    (hloop : tabulate S fuel s₁ = .ok status s₂)
    (hvalues : valuePhase S fuel status s₂ = .ok values s₃)
    (hreport : report S status values s₃ = .ok r s') :
    solve S fuel graph = (.ok r, s'.graph) := by
  have hrun : run S fuel (State.start S graph) = .ok r s' := by
    unfold run
    rw [← bind_assoc]
    calc (begin S >>= _) (State.start S graph)
      _ = (tabulate S fuel >>= _) s₁ := bind_of_ok hbegin _
      _ = (valuePhase S fuel status >>= _) s₂ := bind_of_ok hloop _
      _ = report S status values s₃ := bind_of_ok hvalues _
      _ = .ok r s' := hreport
  unfold solve
  rw [hrun]

omit [DecidableEq W] in
/-- The value phase reads the tables and counts its own steps. It
leaves everything else as the loop has left it. -/
theorem eq_of_valuePhase {fuel : Nat} {status : Status}
    {values : Option (Grid Node D L)}
    (h : valuePhase S fuel status s = .ok values s') :
    ∃ count, s' = { s with stats.valuePropagations := count } := by
  unfold valuePhase at h
  split at h
  · rw [get_bind_apply] at h
    cases hcompute : Values.compute S s fuel {} with
    | error failure _ =>
      rw [hcompute] at h
      cases h
    | ok _ found =>
      rw [hcompute] at h
      cases h
      exact ⟨found.propagations, rfl⟩
  · cases h
    exact ⟨s.stats.valuePropagations, rfl⟩

end Phases

-- ============================================================= the report

/-- The facts of a row are those that path edges end in at its node,
each listed once. -/
private theorem mem_factsAt {jumps : Grid Node (D × D) W} {n : Node} {d : D} :
    d ∈ Results.factsAt jumps n ↔ ∃ source w, jumps.get? n (source, d) =
      some w := by
  unfold Results.factsAt
  simp only [Listing.mem_distinct, List.mem_map, Prod.exists, exists_eq_right]
  exact exists_congr fun source => Table.mem_keys

/-- Rows that are assembled hold the value of every fact reached, and
no others. -/
private theorem value?_of_assembled {graph : Icfg} {valueOf : Node → D → L}
    {jumps : Grid Node (D × D) W} {nodes : List Node} {rows : List (Row D L)}
    (h : nodes.mapM (Results.assembleRow graph valueOf jumps) = .ok rows)
    (n : Node) (d : D) :
    ((rows.find? fun row => decide (row.node = n)).bind fun row =>
      row.values.get? d) = if n ∈ nodes ∧
      d ∈ Results.factsAt jumps n then some (valueOf n d) else none := by
  induction nodes generalizing rows with
  | nil =>
    cases h
    simp
  | cons m nodes ih =>
    rw [List.mapM_cons] at h
    unfold Results.assembleRow at h
    cases hproc : graph.procOf? m with
    | none =>
      rw [hproc] at h
      cases h
    | some p =>
      rw [hproc] at h
      cases hrest : nodes.mapM (Results.assembleRow graph valueOf jumps) with
      | error fault =>
        unfold Results.assembleRow at hrest
        rw [hrest] at h
        cases h
      | ok rest =>
        have hih := ih hrest
        unfold Results.assembleRow at hrest
        rw [hrest] at h
        cases h
        -- the first row of a node is the one that is found
        by_cases hm : m = n
        · subst hm
          simp only [decide_true, List.find?_cons_of_pos, Option.bind_some,
            List.mem_cons, true_or, true_and]
          exact Table.get?_ofKeys _ _ _
        · simp [hm, hih, Ne.symm hm]

/-- Rows depend on the values of the facts reached, and on no
others. -/
theorem assembleRows_congr {I : Icfg} {jumps : Grid Node (D × D) W}
    {valueOf valueOf' : Node → D → L}
    (h : ∀ n d, (∃ source w, jumps.get? n (source, d) = some w) →
      valueOf n d = valueOf' n d) :
    Results.assembleRows I valueOf jumps = Results.assembleRows I
      valueOf' jumps := by
  have hrow : Results.assembleRow I valueOf jumps = Results.assembleRow I
      valueOf' jumps := by
    funext n
    have hmap : (Results.factsAt jumps n).map (fun d => (d, valueOf n d)) =
        (Results.factsAt jumps n).map fun d => (d, valueOf' n d) :=
      List.map_congr_left fun d hd => by rw [h n d (mem_factsAt.mp hd)]
    unfold Results.assembleRow Table.ofKeys
    simp only [hmap]
  unfold Results.assembleRows
  rw [hrow]

/-- What stands in a report: the rows of the path edges, and the rest
as it is in the tables. Reporting changes none of them. -/
theorem eq_of_report {status : Status} {values : Option (Grid Node D L)}
    {r : Results D L} (h : report S status values s = .ok r s') :
    Results.assembleRows (S.view s.graph) (reportedValue S values) s.jumps =
      .ok r.rows ∧ r.status = status ∧ r.bottom = S.problem.lattice.bottom ∧
      r.statistics = finalStatistics S s ∧ r.exploded = s.exploded.reverse ∧
      s' = s := by
  unfold report at h
  rw [get_bind_apply] at h
  cases hrows : Results.assembleRows (S.view s.graph) (reportedValue S values)
    s.jumps with
  | ok rows =>
    rw [hrows] at h
    cases h
    exact ⟨rfl, rfl, rfl, rfl, rfl, rfl⟩
  | error fault =>
    rw [hrows] at h
    cases h

/-- The report gives a value to exactly the facts that path edges end
in. -/
theorem value?_of_report {status : Status} {values : Option (Grid Node D L)}
    {r : Results D L} (h : report S status values s = .ok r s') (n : Node)
    (d : D) (v : L) :
    r.value? n d = some v ↔
      (∃ source w, s.jump? ⟨source, n, d⟩ = some w) ∧
      v = reportedValue S values n d := by
  obtain ⟨hassembled, _⟩ := eq_of_report h
  have hvalue := value?_of_assembled hassembled n d
  rw [Results.value?, Results.row?, hvalue]
  simp only [Listing.mem_sortOn, mem_factsAt, Option.ite_none_right_eq_some,
      Option.some.injEq]
  constructor
  · intro h
    obtain ⟨⟨_, hfact⟩, hv⟩ := h
    exact ⟨hfact, hv.symm⟩
  · intro h
    obtain ⟨hfact, hv⟩ := h
    refine ⟨⟨?_, hfact⟩, hv.symm⟩
    obtain ⟨source, w, hw⟩ := hfact
    exact State.mem_rows_of_jump? hw

variable [DecidableEq W] [DecidableEq L]

/-- What a complete run comes down to: the tables after its first
phase, the values computed from them, and answers that list both. -/
structure Completed (S : Setup D W L) (fuel : Nat) (graph : FlowGraph)
    (r : Results D L) (s₁ s : State D W L) (values : Option (Grid Node D L)) :
    Prop where
  begun : begin S (State.start S graph) = .ok () s₁
  looped : tabulate S fuel s₁ = .ok .complete s
  valued : ∃ s', valuePhase S fuel .complete s = .ok values s'
  value?_eq_some : ∀ {n d v}, r.value? n d = some v ↔
    (∃ source w, s.jump? ⟨source, n, d⟩ = some w) ∧
    v = reportedValue S values n d
  bottom_eq : r.bottom = S.problem.lattice.bottom
  graph_eq : (solve S fuel graph).2 = s.graph

/-- Of a complete run, a fact holds where a path edge ends in it. From
which fact the path edge comes is not reported. -/
theorem Completed.holdsFact_iff {fuel : Nat} {r : Results D L}
    {s₁ : State D W L} {values : Option (Grid Node D L)}
    (h : Completed S fuel graph r s₁ s values) (n : Node) (d : D) :
    r.holdsFact n d = .reachable ↔
    ∃ source w, s.jump? ⟨source, n, d⟩ = some w := by
  rw [Results.holdsFact_eq_reachable_iff]
  simp only [h.value?_eq_some, exists_and_left, exists_eq, and_true]

/-- A solution with results comes of a run that returns them, and it
keeps the graph that the run has left. -/
theorem exists_run_of_solve {fuel : Nat} {r : Results D L}
    (h : (solve S fuel graph).1 = .ok r) :
    ∃ s, run S fuel (State.start S graph) = .ok r s ∧
    (solve S fuel graph).2 = s.graph := by
  unfold solve at h ⊢
  cases hrun : run S fuel (State.start S graph) with
  | error failure s' =>
    rw [hrun] at h
    cases h
  | ok r' s' =>
    rw [hrun] at h
    cases h
    exact ⟨s', rfl, rfl⟩

/-- The parts of a solution with results, as in `parts_of_run`. -/
theorem parts_of_solve {fuel : Nat} {r : Results D L}
    (h : (solve S fuel graph).1 = .ok r) :
    ∃ s₁ s₂ s₃ status values, begin S (State.start S graph) = .ok () s₁ ∧
      tabulate S fuel s₁ = .ok status s₂ ∧
      valuePhase S fuel status s₂ = .ok values s₃ ∧
      report S status values s₃ = .ok r s₃ ∧
      (solve S fuel graph).2 = s₃.graph := by
  obtain ⟨s', hrun, hgraph⟩ := exists_run_of_solve h
  obtain ⟨s₁, s₂, s₃, status, values, hbegin, hloop, hvalues, hreport⟩ :=
    parts_of_run hrun
  obtain ⟨_, _, _, _, _, rfl⟩ := eq_of_report hreport
  exact ⟨s₁, s₂, s', status, values, hbegin, hloop, hvalues, hreport, hgraph⟩

/-- Every complete run comes down to this. What is proved about
finished tables reaches the results by this lemma. -/
theorem completed_of_solve {fuel : Nat} {r : Results D L}
    (h : (solve S fuel graph).1 = .ok r) (hcomplete : r.status = .complete) :
    ∃ s₁ s values, Completed S fuel graph r s₁ s values := by
  obtain ⟨s₁, s, s₃, status, values, hbegin, hloop, hvalues, hreport,
      hsolved⟩ := parts_of_solve h
  obtain ⟨_, hstatus, hbottom, _⟩ := eq_of_report hreport
  obtain rfl := hstatus.symm.trans hcomplete
  obtain ⟨_, rfl⟩ := eq_of_valuePhase hvalues
  refine ⟨s₁, s, values, hbegin, hloop, ⟨_, hvalues⟩, fun {n d v} => ?_,
      hbottom, hsolved⟩
  rw [value?_of_report hreport]
  rfl

/-- A run that asks for nothing leaves the graph as it was. Only
requests change it. -/
theorem graph_of_isPure {fuel : Nat} {r : Results D L}
    (hown : ∀ {p : Proc} {n : Node}, (S.view graph).start? p = some n →
      (S.view graph).procOf? n = some p) (hpure : S.problem.IsPure)
    (hrun : (solve S fuel graph).1 = .ok r) (hcomplete : r.status = .complete) :
    (solve S fuel graph).2 = graph := by
  obtain ⟨s₁, s, values, hdone⟩ := completed_of_solve hrun hcomplete
  obtain ⟨_, met, hs⟩ := saturated_of_isPure isGrowthOrder_trivial hpure hown
    hdone.begun hdone.looped
  rw [hdone.graph_eq, hs.graph_eq hpure]

end Tabulation.Solver
