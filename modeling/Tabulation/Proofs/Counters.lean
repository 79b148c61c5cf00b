/-
The counters account for all the work.

A path edge is queued when it is stored and whenever its jump function
is replaced, and at no other time as long as no call gets a further
target. So what was taken up and what is pending is together what was
stored and what was replaced (`Poised`). That is kept by every change
of the tables, and when nothing is pending any more it says how many
turns the loop took.

# What is counted

The other counters are raised as things are met for the first time. The
tables raise theirs as a key comes that they do not have, and carry the
proof that the count is the number of their entries. Callers are put on
record once, and callees are met once. So each counter ends at the
number of different things of which the run says that they are there
(`Tallies`).
-/
import Mathlib.Data.Set.Card
import Tabulation.Proofs.IterationLimit
import Tabulation.Proofs.OrderIndependence
import Tabulation.Proofs.Solver.Unweighted
import Tabulation.Proofs.Solver.Settling

namespace Tabulation

/-- A listing without repetitions is as long as there are things in it. -/
private theorem Listing.encard_eq_length {α : Type} [DecidableEq α] {l : List α}
    {p : α → Prop} (h : l.Nodup) (hmem : ∀ a, a ∈ l ↔ p a) :
    {a | p a}.encard = l.length := by
  have heq : {a | p a} = (l.toFinset : Set α) := by
    rw [List.coe_toFinset]
    exact Set.ext fun a => (hmem a).symm
  rw [heq, Set.encard_coe_eq_coe_finsetCard, List.toFinset_card_of_nodup h]

namespace Solver

variable {D W L : Type} [DecidableEq D]
variable {S : Setup D W L} {graph : FlowGraph} {s s' : State D W L}

-- ============================================================= path edges

/-- The size of the table of jump functions is the number of path
edges. -/
private theorem encard_recorded (s : State D W L) :
    {e | Recorded s e}.encard = s.jumps.size := by
  have hnodup : (s.jumps.cells.map fun c =>
        PathEdge.mk c.2.1.1 c.1 c.2.1.2).Nodup := by
    refine List.Nodup.map_on (fun a ha b hb hab => ?_) s.jumps.nodup_cells
    obtain ⟨n, ⟨source, target⟩, w⟩ := a
    obtain ⟨n', ⟨source', target'⟩, w'⟩ := b
    obtain ⟨rfl, rfl, rfl⟩ := PathEdge.mk.injEq .. ▸ hab
    have hw := (Grid.mem_cells.mp ha).symm.trans (Grid.mem_cells.mp hb)
    rw [Option.some.inj hw]
  rw [Listing.encard_eq_length hnodup fun e => ?_, List.length_map]
  · rw [Grid.size_eq]
  · rw [List.mem_map]
    constructor
    · rintro ⟨⟨n, ⟨source, target⟩, w⟩, hc, rfl⟩
      exact ⟨w, Grid.mem_cells.mp hc⟩
    · rintro ⟨w, hw⟩
      exact ⟨(e.node, (e.source, e.target), w), Grid.mem_cells.mpr hw, rfl⟩

/-- Storing a path edge adds one to the count of path edges. -/
private theorem size_queued_of_new {e : PathEdge D} (h : s.jump? e = none)
    (w : W) : (queued s e w).jumps.size = s.jumps.size + 1 := by
  have hnew : (s.jumps.row e.node).contains (e.source, e.target) = false :=
    Option.isSome_eq_false_iff.mpr (Option.isNone_iff_eq_none.mpr h)
  exact (Grid.size_insert ..).trans (if_neg (by simp [hnew]))

/-- Replacing a jump function does not add to it. -/
private theorem size_queued_of_recorded {e : PathEdge D} (h : Recorded s e)
    (w : W) : (queued s e w).jumps.size = s.jumps.size := by
  have hold : (s.jumps.row e.node).contains (e.source, e.target) = true :=
    Option.isSome_iff_exists.mpr h
  exact (Grid.size_insert ..).trans (if_pos hold)

-- ============================================================= the others

/-- The summaries are those of the path edges that end where a
procedure is left. An exit has an owner, so no such path edge is
without a summary. -/
private theorem encard_summaries (hs : Concluded S graph s)
    (howned : ∀ {e}, Recorded s e → Owned (S.view graph) e.node) :
    {e | Recorded s e ∧ (S.view graph).isCall e.node = false ∧
      (S.view graph).isExit? e.node = some true}.encard = s.summaries.size := by
  have hkey : ∀ {k}, k ∈ s.summaries.keys ↔
      (S.view graph).Leaves k.exit k.proc ∧
      Recorded s ⟨k.entry, k.exit, k.exitFact⟩ := by
    intro k
    rw [Table.mem_keys]
    simp only [hs.get?_summaries, exists_and_left]
    rfl
  have hnodup : (s.summaries.keys.map fun k =>
        PathEdge.mk k.entry k.exit k.exitFact).Nodup := by
    refine List.Nodup.map_on (fun a ha b hb hab => ?_) s.summaries.nodup_keys
    obtain ⟨p, entry, exit, exitFact⟩ := a
    obtain ⟨p', entry', exit', exitFact'⟩ := b
    obtain ⟨rfl, rfl, rfl⟩ := PathEdge.mk.injEq .. ▸ hab
    -- an exit is left by the procedure that owns it
    have hp := (hkey.mp ha).1.procOf.symm.trans (hkey.mp hb).1.procOf
    obtain rfl : p = p' := Option.some.inj hp
    rfl
  rw [Listing.encard_eq_length hnodup fun e => ?_, List.length_map]
  · rw [Table.size_eq, Table.keys, List.length_map]
  · rw [List.mem_map]
    constructor
    · rintro ⟨k, hk, rfl⟩
      obtain ⟨hleave, he⟩ := hkey.mp hk
      exact ⟨he, hleave.notCall, hleave.isExit⟩
    · rintro ⟨he, hcall, hexit⟩
      obtain ⟨p, hp⟩ := howned he
      exact ⟨⟨p, e.source, e.node, e.target⟩,
          hkey.mpr ⟨⟨hcall, hexit, hp⟩, he⟩, rfl⟩

/-- The callers counted are those with a reason to be on record. -/
private theorem encard_incoming (hs : Concluded S graph s) :
    {i : Incoming D | (∃ source, Recorded s ⟨source, i.site, i.callFact⟩) ∧
      ∃ g, (S.view graph).Enters i.site g i.start ∧
        i.entry ∈ (S.callTargets i.site g i.start i.callFact).map
          Prod.fst}.encard =
      s.stats.incomingEdges := by
  rw [hs.accounted.counted.incomingEdges, ← hs.accounted.graph_eq]
  exact Listing.encard_eq_length hs.accounted.counted.nodup_incoming fun _ =>
    hs.mem_incoming

/-- The callees without a body are counted once for each site that
meets them. -/
private theorem encard_bodiless (hs : Concluded S graph s) :
    {k : Node × Proc | (∃ d source, Recorded s ⟨source, k.1, d⟩) ∧
      (S.view graph).isCall k.1 = true ∧ k.2 ∈ (S.view graph).callees k.1 ∧
      (S.view graph).start? k.2 = none}.encard = s.stats.bodilessCallees := by
  rw [hs.accounted.bodiless]
  refine Listing.encard_eq_length
    (hs.accounted.counted.nodup_known.filter _) fun k => ?_
  obtain ⟨c, g⟩ := k
  rw [List.mem_filter, hs.mem_known, decide_eq_true_iff]
  unfold CalleeBacked
  rw [hs.accounted.graph_eq, exists_comm, and_assoc, and_assoc]

-- =========================================================== conservation

/-- What was taken up and what is pending is what was stored and what
was replaced. Both sides count how often a path edge was queued. -/
def Poised (s : State D W L) : Prop :=
  s.stats.worklistIterations + s.worklist.length =
    s.jumps.size + s.stats.jumpFunctionUpdates

/-- A new path edge is queued once and stored once. -/
theorem Poised.store (hs : Poised s) {e : PathEdge D} (h : s.jump? e = none)
    (w : W) : Poised (queued s e w) := by
  unfold Poised at hs ⊢
  rw [size_queued_of_new h]
  show s.stats.worklistIterations + (s.worklist ++ [e]).length =
    s.jumps.size + 1 + s.stats.jumpFunctionUpdates
  rw [List.length_append, List.length_singleton]
  omega

/-- A replaced jump function is counted, and its path edge queued. -/
theorem Poised.replace (hs : Poised s) {e : PathEdge D} (h : Recorded s e)
    (w : W) :
    Poised (queued
      { s with
        stats.jumpFunctionUpdates :=
          s.stats.jumpFunctionUpdates + 1 } e w) := by
  unfold Poised at hs ⊢
  rw [size_queued_of_recorded (s := { s with
    stats.jumpFunctionUpdates := s.stats.jumpFunctionUpdates + 1 }) h]
  show s.stats.worklistIterations + (s.worklist ++ [e]).length =
    s.jumps.size + (s.stats.jumpFunctionUpdates + 1)
  rw [List.length_append, List.length_singleton]
  omega

omit [DecidableEq D] in
/-- The path edge that is taken up moves from one side of the count to
the other. -/
theorem Poised.take (hs : Poised s) {e : PathEdge D} {rest : List (PathEdge D)}
    (hperm : s.worklist.Perm (e :: rest)) (seen rescans : Nat) :
    Poised (relisted s rest seen (s.stats.worklistIterations + 1) rescans) := by
  have hlength := hperm.length_eq
  unfold Poised at hs ⊢
  rw [hlength, List.length_cons] at hs
  show s.stats.worklistIterations + 1 + rest.length = s.jumps.size +
    s.stats.jumpFunctionUpdates
  omega

variable [DecidableEq L]

/-- No other stride queues anything. -/
theorem Poised.stride (hs : Poised s) (h : Stride S s s') : Poised s' := by
  cases h with
  | move hmove =>
    cases hmove with
    | serve edge d =>
      rw [served_eq]
      exact hs
    | store w hnew _ => exact hs.store hnew w
    | raise hf _ _ => exact hs.replace ⟨_, hf⟩ _
    | _ => exact hs
  | _ => exact hs

theorem Poised.course (hs : Poised s) (h : Course S s s') : Poised s' := by
  induction h with
  | refl => exact hs
  | tail _ hstride ih => exact ih.stride hstride

/-- The tables between turns, where no call gets a further target. So
no path edge is queued for any other reason. -/
structure Even (S : Setup D W L) (graph : FlowGraph) (s : State D W L) :
    Prop where
  kept : Kept S (S.view graph) s
  graph_eq : s.graph = graph
  seen : s.seenRevision = (S.view graph).revision
  poised : Poised s

/-- A turn that is not the last keeps the balance: it takes one path
edge up, and what following it queues is stored or replaced. -/
theorem Even.turned (hpure : S.problem.IsPure) (hs : Even S graph s)
    (h : Turned S s none s') : Even S graph s' := by
  have hsteady := Setup.isSteady_of_isPure hpure
  have hkept :=
    ((guards_kept (S.view graph) hsteady).turned ⟨hs.kept, trivial⟩ h).1
  cases h with
  | followed hperm hprocessed =>
    refine ⟨hkept, ?_, ?_, (hs.poised.take hperm _ _).course hprocessed.course⟩
    · exact (hprocessed.course.graph_eq hpure).trans hs.graph_eq
    · exact (hprocessed.course.grows hsteady).seenRevision.trans hs.seen
  | rescanned _ hseen _ =>
    -- the graph is as it was, so there was nothing to look for
    rw [hs.graph_eq, hs.seen] at hseen
    exact absurd rfl hseen

variable [DecidableEq W]

/-- Planting a seed queues its path edge as it is stored. -/
private theorem poised_begin (S : Setup D W L) (graph : FlowGraph) :
    Ensures (fun _ => True) (begin S) (fun _ s' => Poised s')
      (State.start S graph) := by
  refine ensures_begin_of rfl (fun seed s hs => ?_) fun hs _ => hs
  unfold plant
  refine Ensures.modify_bind ?_
  refine (ensures_propagate_of none fun _ _ _ _ => trivial).mono
    fun _ s' h => ?_
  have hs₁ : Poised { s.intern [seed.fact] with seeds := s.seeds ++ [seed] } :=
    hs
  rcases h with ⟨hnew, rfl⟩ | ⟨links, _, rfl⟩ | ⟨f, hf, _, _, rfl⟩
  · exact hs₁.store hnew _
  · exact hs₁
  · exact hs₁.replace ⟨f, hf⟩ _

private theorem even_of_begin
    (hbegin : begin S (State.start S graph) = .ok () s) : Even S graph s := by
  obtain ⟨hsown, hseen⟩ := sown_of_begin hbegin
  exact ⟨hsown.kept, hsown.graph_eq, hseen, (poised_begin S graph).of_ok hbegin⟩

/-- When nothing is left, every path edge was taken up once for each
jump function that it had. -/
private theorem iterations_of_tabulate (hpure : S.problem.IsPure) {fuel : Nat}
    {s₁ : State D W L} (hbegin : begin S (State.start S graph) = .ok () s₁)
    (hloop : tabulate S fuel s₁ = .ok .complete s) :
    s.stats.worklistIterations = s.jumps.size +
      s.stats.jumpFunctionUpdates := by
  have hG := guards_kept (S.view graph) (Setup.isSteady_of_isPure hpure)
  have hend : Ensures (fun _ => True) (tabulate S fuel)
      (fun status s' => status = .complete →
        s'.stats.worklistIterations = s'.jumps.size +
          s'.stats.jumpFunctionUpdates) s₁ := by
    refine ensures_loop (J := Even S graph) hG (fun hs => ⟨hs.kept, trivial⟩)
      trivial (fun hs h => hs.turned hpure h)
      (fun {s s' status} hs h hstatus => ?_) fuel (even_of_begin hbegin)
    subst hstatus
    cases h with
    | ended hnil =>
      have hpoised := hs.poised
      unfold Poised at hpoised
      rw [hnil] at hpoised
      exact hpoised
  exact hend.of_ok hloop rfl

-- ============================================================ the results

/-- The counters of a run on `I` that ended with the tables `s` are
numbers of different things: turns of the loop, path edges with a jump
function, those at exits, ways into callees, and callees without a
body. -/
structure Tallies (S : Setup D W L) (I : Icfg) (r : Results D L)
    (s : State D W L) : Prop where
  worklistIterations : r.statistics.worklistIterations =
    r.statistics.pathEdges + r.statistics.jumpFunctionUpdates
  pathEdges : {e | ∃ f, s.jump? e = some f}.encard = r.statistics.pathEdges
  summaryEdges : {e | (∃ f, s.jump? e = some f) ∧ I.isCall e.node = false ∧
    I.isExit? e.node = some true}.encard = r.statistics.summaryEdges
  incomingEdges : {i : Incoming D | r.holdsFact i.site i.callFact = .reachable ∧
    ∃ g, I.Enters i.site g i.start ∧
      i.entry ∈ (S.callTargets i.site g i.start i.callFact).map
        Prod.fst}.encard =
    r.statistics.incomingEdges
  bodilessCallees : {k : Node × Proc | (∃ d, r.holdsFact k.1 d = .reachable) ∧
    I.isCall k.1 = true ∧ k.2 ∈ I.callees k.1 ∧ I.start? k.2 = none}.encard =
    r.statistics.bodilessCallees

/-- The counters of a complete run are what they count. -/
private theorem tallies_of_run (hpure : S.problem.IsPure)
    (hwf : (S.view graph).WellFormed)
    (honce : ∀ c, ((S.view graph).callees c).Nodup) {fuel : Nat}
    {r : Results D L} (hrun : run S fuel (State.start S graph) = .ok r s)
    (hcomplete : r.status = .complete) : Tallies S (S.view graph) r s := by
  obtain ⟨s₁, s₂, s₃, status, values, hbegin, hloop, hvalues, hreport⟩ :=
    parts_of_run hrun
  obtain ⟨hrows, hstatus, _, hstatistics, _, rfl⟩ := eq_of_report hreport
  obtain rfl := hstatus.symm.trans hcomplete
  have hreached := fun n d => holdsFact_iff_of_report (n := n) (d := d) hreport
  obtain ⟨_, rfl⟩ := eq_of_valuePhase hvalues
  have hs := concluded_of_tabulate hpure hwf honce hbegin hloop
  have howned : ∀ {e}, Recorded s₂ e → Owned (S.view graph) e.node := by
    rintro e ⟨w, hw⟩
    rw [← hs.accounted.graph_eq]
    exact owned_of_assembleRows hrows (State.mem_rows_of_jump? hw)
  have hsummaries := encard_summaries hs howned
  have hincoming := encard_incoming hs
  have hbodiless := encard_bodiless hs
  constructor
  · rw [hstatistics]
    exact iterations_of_tabulate hpure hbegin hloop
  · rw [hstatistics]
    exact encard_recorded s₂
  · rw [hstatistics]
    exact hsummaries
  · simp only [hreached, hstatistics]
    exact hincoming
  · simp only [hreached, hstatistics]
    exact hbodiless

/-- In a complete run without further targets, the counters account for
all the work; and where every edge carries the identity, no jump
function is ever replaced. -/
theorem counters_account_for_work :
    (∀ (S : Setup D W L) (graph : FlowGraph) (fuel : Nat) (r : Results D L),
      S.problem.IsPure → (S.view graph).WellFormed →
      (∀ c, ((S.view graph).callees c).Nodup) → (solve S fuel graph).1 = .ok r →
      r.status = .complete →
      ∃ s, run S fuel (State.start S graph) = .ok r s ∧
      Tallies S (S.view graph) r s) ∧
    ∀ (R : ReachabilityProblem D) (config : Config) (view : FlowGraph → Icfg)
      (world : World) (graph : FlowGraph) (fuel : Nat) (r : Results D Binary),
      (solve { problem := R.toProblem, config, view, world } fuel graph).1 =
        .ok r → r.statistics.jumpFunctionUpdates = 0 := by
  refine ⟨fun S graph fuel r hpure hwf honce hrun hcomplete => ?_,
    fun R config view world graph fuel r hrun => ?_⟩
  · obtain ⟨s, hrun, _⟩ := exists_run_of_solve hrun
    exact ⟨s, hrun, tallies_of_run hpure hwf honce hrun hcomplete⟩
  · exact jumpFunctionUpdates_of_isUnweighted
      (R.isUnweighted config view world) hrun

/-- Of 29 turns, 25 are for path edges that are new and 4 for jump
functions that are replaced. -/
theorem counters_account_for_work_descent :
    (∃ r s, run (descentConstants .fifo) 100
        (State.start (descentConstants .fifo)
          (Draft.ofSteps descent).build.graph) = .ok r s ∧
      r.status = .complete ∧ r.statistics.worklistIterations = 29 ∧
      r.statistics.pathEdges = 25 ∧ r.statistics.jumpFunctionUpdates = 4 ∧
      Tallies (descentConstants .fifo)
        (Draft.ofSteps descent).build.graph.icfg r s) ∧
    ∃ r, (solve (descentUninitialized .fifo) 100
      (Draft.ofSteps descent).build.graph).1 = .ok r ∧
      r.statistics.jumpFunctionUpdates = 0 := by
  constructor
  · have heval : (solve (descentConstants .fifo) 100
        (Draft.ofSteps descent).build.graph).1.toOption.map
        (fun r => (r.status, r.statistics.worklistIterations,
          r.statistics.pathEdges, r.statistics.jumpFunctionUpdates)) =
          some (.complete, 29, 25, 4) := by decide +kernel
    obtain ⟨r, hrun, hr⟩ := exists_ok_of_map heval
    simp only [Prod.mk.injEq] at hr
    obtain ⟨hcomplete, hiterations, hedges, hupdates⟩ := hr
    have hpure : (descentConstants .fifo).problem.IsPure := fun _ _ _ => rfl
    have hwf := isProper_descent.isLaidOut.wellFormed
    have honce := Draft.calleesOnce_build (Draft.ofSteps descent)
    obtain ⟨s, hs, htallies⟩ :=
      counters_account_for_work.1 (descentConstants .fifo)
      (Draft.ofSteps descent).build.graph 100 r hpure hwf
      honce.nodup_callees_icfg hrun hcomplete
    exact ⟨r, s, hs, hcomplete, hiterations, hedges, hupdates, htallies⟩
  · have heval : (solve (descentUninitialized .fifo) 100
        (Draft.ofSteps descent).build.graph).1.toOption.map
          (fun r => r.status) =
        some .complete := by decide +kernel
    obtain ⟨r, hrun, _⟩ := exists_ok_of_map heval
    have h := (counters_account_for_work (D := LocalFact) (W := BinaryEdge)
        (L := Binary)).2
    exact ⟨r, hrun, h _ _ _ _ _ _ r hrun⟩

end Solver

end Tabulation
