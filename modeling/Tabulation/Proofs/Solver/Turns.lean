/-
How a run begins, and the turns of its loop.

The loop begins with tables that hold the seeds and nothing else
(`Sown`). From there on it takes turns, and there are four kinds of
them (`Turned`): a pending path edge is followed, a reason to stop is
found, call sites are made pending again, or nothing is left. What a
whole run keeps is proved by these four cases, and whether it comes to
an end is a matter of the first and the third.

# Failures

As for the moves, failures are left open. `Admits` names those with
which a run may refuse to begin.
-/
import Mathlib.Data.Prod.Lex
import Tabulation.Proofs.Solver.Outcome
import Tabulation.Proofs.Solver.Walk

namespace Tabulation.Solver

variable {D W L : Type} [DecidableEq D]

-- =============================================================== planting

section Vocabulary

variable [DecidableEq L] (S : Setup D W L)

/-- Failures with which a run on `I` may refuse to begin are allowed.
There is one field for each of the checks. -/
structure Admits (I : Icfg) (E : Failure D W L → Prop) : Prop where
  lattice : ∀ v, S.problem.lattice.violation? S.samples = some v →
    E (.rejected (.malformedLattice v))
  noSeeds : S.problem.entries = [] → S.problem.seeds = [] →
    E (.rejected .noSeeds)
  entry : ∀ p ∈ S.problem.entries, I.start? p = none →
    E (.rejected (.missingStart p))
  seed : ∀ x ∈ S.problem.seeds, I.isStart? x.node = some false →
    E (.rejected (.seedNotAtStart x.node x.fact))
  unowned : ∀ x ∈ S.problem.seeds, I.isStart? x.node = none →
    E (.fault (.unknownNode x.node))
  regress : ∀ (e : PathEdge D) f g, S.config.checkMonotonicity = true →
    S.isUpperBound (S.problem.functions.join f g) f g = false →
    E (.rejected (.functionRegressed e.node e.target f g
        (S.problem.functions.join f g)))

/-- Tables that hold the given seeds and nothing else. -/
structure Sown (graph : FlowGraph) (seeds : List (Seed D L)) (s : State D W L) :
    Prop where
  graph_eq : s.graph = graph
  seeds_eq : s.seeds = seeds
  /-- Where procedures own their starts, seeds are at starts. -/
  atStart : (∀ {p : Proc} {n : Node}, (S.view graph).start? p = some n →
      (S.view graph).procOf? n = some p) →
    ∀ seed ∈ seeds, (S.view graph).isStart? seed.node = some true
  facts_eq : s.facts = Listing.addAll [S.problem.zero] (seeds.map Seed.fact)
  recorded : ∀ {e}, Recorded s e ↔
    ∃ seed ∈ seeds, e = ⟨seed.fact, seed.node, seed.fact⟩
  row : ∀ {n}, n ∈ s.jumps.rows.keys → ∃ seed ∈ seeds, n = seed.node
  pending : ∀ {e}, e ∈ s.worklist ↔ Recorded s e
  incoming_eq : s.incoming = []
  summaries_eq : s.summaries = .empty
  callFlows_eq : s.callFlows = .empty
  known_eq : s.known = []
  exploded_eq : s.exploded = []
  incomingEdges_eq : s.stats.incomingEdges = 0
  bodiless_eq : s.stats.bodilessCallees = 0
  iterations_eq : s.stats.worklistIterations = 0
  uncancelled : s.cancelled = false

/-- Path edges are pending, or the flows out of them are noted. -/
def Attended (s : State D W L) : Prop :=
  ∀ e, Recorded s e → e ∈ s.worklist ∨ NotedAt S s e

/-- Tables that values can be computed from: the seeds are on record,
and what call flows on record lead to. -/
structure Ready (s : State D W L) : Prop where
  seed : ∀ seed ∈ s.seeds, Recorded s ⟨seed.fact, seed.node, seed.fact⟩
  filled : Filled S s

/-- What a turn of the loop does to the tables, and the status it ends
the loop with, if it does. -/
inductive Turned (s : State D W L) : Option Status → State D W L → Prop
  /-- A pending path edge is followed. -/
  | followed {e : PathEdge D} {rest : List (PathEdge D)} {s' : State D W L} :
      s.worklist.Perm (e :: rest) →
      Processed S e
        (relisted s rest s.seenRevision (s.stats.worklistIterations + 1)
          s.stats.calleeRescans)
        s' →
      Turned s none s'
  /-- There is a reason to stop. -/
  | stopped {reason : StopReason} : stopReason? S s = some reason →
      Turned s (some (.incomplete reason))
        (relisted s [] s.seenRevision s.stats.worklistIterations
          s.stats.calleeRescans)
  /-- Nothing was pending, and call sites are made pending again. -/
  | rescanned {pending : List (PathEdge D)} {rescans : Nat} : s.worklist = [] →
      (S.view s.graph).revision ≠ s.seenRevision →
      (∀ {e}, e ∈ pending → Recorded s e) → Turned s none
        (relisted s pending (S.view s.graph).revision
          s.stats.worklistIterations rescans)
  /-- Nothing is left. -/
  | ended {rescans : Nat} : s.worklist = [] →
      Turned s (some .complete)
        (relisted s [] (S.view s.graph).revision
          s.stats.worklistIterations rescans)

end Vocabulary

variable {S : Setup D W L} {I₀ : Icfg} {Inv : State D W L → Prop}
variable {E : Failure D W L → Prop}
variable {graph : FlowGraph} {s s' : State D W L}

/-- At the very start there are no seeds yet. -/
theorem sown_start (S : Setup D W L) (graph : FlowGraph) :
    Sown S graph [] (State.start S graph) where
  graph_eq := rfl
  seeds_eq := rfl
  atStart := fun _ _ h => absurd h List.not_mem_nil
  facts_eq := rfl
  recorded := by
    refine ⟨fun h => ?_, fun h => ?_⟩
    · obtain ⟨w, hw⟩ := h
      cases hw
    · obtain ⟨seed, hseed, _⟩ := h
      exact absurd hseed List.not_mem_nil
  row := fun h => absurd h List.not_mem_nil
  pending := by
    refine ⟨fun h => absurd h List.not_mem_nil, fun h => ?_⟩
    obtain ⟨w, hw⟩ := h
    cases hw
  incoming_eq := rfl
  summaries_eq := rfl
  callFlows_eq := rfl
  known_eq := rfl
  exploded_eq := rfl
  incomingEdges_eq := rfl
  bodiless_eq := rfl
  iterations_eq := rfl
  uncancelled := rfl

/-- One seed more, with its path edge on record and pending. Two seeds
may be at the same place, and then there is nothing new on record. -/
theorem Sown.plant {seeds : List (Seed D L)} {seed : Seed D L}
    (hs : Sown S graph seeds s)
    (hstart : (∀ {p : Proc} {n : Node}, (S.view graph).start? p = some n →
        (S.view graph).procOf? n = some p) →
        (S.view graph).isStart? seed.node = some true)
    {jumps : Grid Node (D × D) W} {worklist : List (PathEdge D)} (updates : Nat)
    (hrecorded : ∀ e : PathEdge D,
      (∃ w, jumps.get? e.node (e.source, e.target) = some w) ↔ Recorded s e ∨
      e = ⟨seed.fact, seed.node, seed.fact⟩)
    (hrow : ∀ n ∈ jumps.rows.keys, n ∈ s.jumps.rows.keys ∨ n = seed.node)
    (hpending : ∀ e, e ∈ worklist ↔
      Recorded s e ∨ e = ⟨seed.fact, seed.node, seed.fact⟩) :
    Sown S graph (seeds ++ [seed])
      { s.intern [seed.fact] with
        seeds := s.seeds ++ [seed]
        jumps
        worklist
        stats := { s.stats with jumpFunctionUpdates := updates } } where
  graph_eq := hs.graph_eq
  seeds_eq := congrArg (· ++ [seed]) hs.seeds_eq
  atStart := by
    intro hown x hx
    rcases List.mem_append.mp hx with hx | hx
    · exact hs.atStart hown x hx
    · rw [List.mem_singleton.mp hx]
      exact hstart hown
  facts_eq := by
    show Listing.addAll s.facts [seed.fact] = _
    rw [hs.facts_eq, List.map_append]
    exact List.foldl_append.symm
  recorded := by
    intro e
    refine (hrecorded e).trans ?_
    rw [hs.recorded]
    constructor
    · intro h
      -- the new seed is the one at the end of the list
      rcases h with ⟨x, hx, he⟩ | he
      · exact ⟨x, List.mem_append_left _ hx, he⟩
      · exact ⟨seed, List.mem_append_right _ (List.mem_singleton.mpr rfl), he⟩
    · intro h
      obtain ⟨x, hx, he⟩ := h
      rcases List.mem_append.mp hx with hx | hx
      · exact Or.inl ⟨x, hx, he⟩
      · rw [List.mem_singleton.mp hx] at he
        exact Or.inr he
  row := by
    intro n hn
    rcases hrow n hn with hn | hn
    · obtain ⟨x, hx, he⟩ := hs.row hn
      exact ⟨x, List.mem_append_left _ hx, he⟩
    · exact ⟨seed, List.mem_append_right _ (List.mem_singleton.mpr rfl), hn⟩
  pending := fun {e} => (hpending e).trans (hrecorded e).symm
  incoming_eq := hs.incoming_eq
  summaries_eq := hs.summaries_eq
  callFlows_eq := hs.callFlows_eq
  known_eq := hs.known_eq
  exploded_eq := hs.exploded_eq
  incomingEdges_eq := hs.incomingEdges_eq
  bodiless_eq := hs.bodiless_eq
  iterations_eq := hs.iterations_eq
  uncancelled := hs.uncancelled

/-- Links may be noted beside the tables. -/
theorem Sown.links {seeds : List (Seed D L)} (hs : Sown S graph seeds s)
    (links : Links) : Sown S graph seeds { s with links } :=
  ⟨hs.graph_eq, hs.seeds_eq, hs.atStart, hs.facts_eq, hs.recorded, hs.row,
    hs.pending, hs.incoming_eq, hs.summaries_eq, hs.callFlows_eq, hs.known_eq,
    hs.exploded_eq, hs.incomingEdges_eq, hs.bodiless_eq, hs.iterations_eq,
    hs.uncancelled⟩

/-- What the loop begins with is kept. -/
theorem Sown.kept {seeds : List (Seed D L)} (hs : Sown S graph seeds s) :
    Kept S (S.view graph) s where
  origin := by
    rw [hs.graph_eq]
    exact .refl _
  zero := by
    rw [hs.facts_eq]
    exact Listing.mem_addAll.mpr (Or.inl (List.mem_singleton.mpr rfl))
  pending := fun he => hs.pending.mp he
  callFlow := by
    intro c g d ts h
    rw [hs.callFlows_eq] at h
    cases h

/-- What the loop begins with is ready for values: there are no call
flows yet. -/
theorem Sown.ready {seeds : List (Seed D L)} (hs : Sown S graph seeds s) :
    Ready S s where
  seed := fun seed hseed => hs.recorded.mpr ⟨seed, hs.seeds_eq ▸ hseed, rfl⟩
  filled := by
    intro c g d ts start h
    rw [hs.callFlows_eq] at h
    cases h

section Planting

variable [DecidableEq W] [DecidableEq L]

/-- Planting a seed, at a start. If it is on record already, its jump
function is joined with the identity, and that join may be rejected. -/
theorem sown_plant (hA : Admits S (S.view graph) E) {seeds : List (Seed D L)}
    {seed : Seed D L} (hs : Sown S graph seeds s)
    (hstart : (∀ {p : Proc} {n : Node}, (S.view graph).start? p = some n →
      (S.view graph).procOf? n = some p) →
      (S.view graph).isStart? seed.node = some true) :
    Ensures E (plant S seed)
      (fun _ s' => Sown S graph (seeds ++ [seed]) s') s := by
  have hqueue : ∀ (w : W) (updates : Nat), Sown S graph (seeds ++ [seed])
      { s.intern [seed.fact] with
        seeds := s.seeds ++ [seed]
        jumps := s.jumps.insert seed.node (seed.fact, seed.fact) w
        worklist := s.worklist ++ [⟨seed.fact, seed.node, seed.fact⟩]
        stats := { s.stats with jumpFunctionUpdates := updates } } := by
    intro w updates
    refine hs.plant hstart updates (fun e => ?_) (fun n hn => ?_) fun e => ?_
    · exact recorded_queued_iff (s := s)
        (e := ⟨seed.fact, seed.node, seed.fact⟩)
    · exact Grid.mem_keys_rows_insert.mp hn
    · rw [List.mem_append, List.mem_singleton, hs.pending]
  unfold plant
  refine Ensures.modify_bind ?_
  refine (ensures_propagate_of none fun f _ =>
    hA.regress ⟨seed.fact, seed.node, seed.fact⟩ f _).mono fun _ s' h => ?_
  -- new, there already, or there with another jump function
  rcases h with ⟨_, rfl⟩ | ⟨links, hmem, rfl⟩ | ⟨f, _, _, _, rfl⟩
  · exact hqueue _ s.stats.jumpFunctionUpdates
  · have hknown : ∀ e, Recorded s e ∨ e = ⟨seed.fact, seed.node, seed.fact⟩ ↔
        Recorded s e := by
      intro e
      refine ⟨fun h => ?_, Or.inl⟩
      rcases h with h | rfl
      · exact h
      · exact hmem
    exact (hs.plant hstart s.stats.jumpFunctionUpdates
      (fun e => (hknown e).symm) (fun n hn => Or.inl hn) fun e =>
      hs.pending.trans (hknown e).symm).links links
  · exact hqueue _ _

/-- An entry is planted as a seed at the start of its procedure. A
procedure without a start is refused. -/
theorem sown_plantEntry (hA : Admits S (S.view graph) E) {p : Proc}
    (hp : p ∈ S.problem.entries) (seeds : List (Seed D L)) (s : State D W L)
    (hs : Sown S graph seeds s) :
    Ensures E (plantEntry S p)
      (fun _ s' => Sown S graph
        (seeds ++ (((S.view graph).start? p).map fun node =>
          { node, fact := S.problem.zero, value := S.problem.initial }).toList)
        s') s := by
  unfold plantEntry
  refine Ensures.get_bind ?_
  rw [hs.graph_eq]
  cases hstart : (S.view graph).start? p with
  | none => exact Ensures.throw (hA.entry p hp hstart)
  | some n =>
    refine sown_plant hA hs fun hown => ?_
    show ((S.view graph).procOf? n).map _ = some true
    rw [hown hstart, Option.map_some, hstart, decide_eq_true rfl]

/-- A seed of the problem is planted if it is at a start. -/
theorem sown_plantSeed (hA : Admits S (S.view graph) E) {seed : Seed D L}
    (hseed : seed ∈ S.problem.seeds) (seeds : List (Seed D L)) (s : State D W L)
    (hs : Sown S graph seeds s) :
    Ensures E (plantSeed S seed)
      (fun _ s' => Sown S graph (seeds ++ [seed]) s') s := by
  unfold plantSeed
  refine Ensures.get_bind ?_
  rw [hs.graph_eq]
  refine (ensures_askOf_of fun hnone => hA.unowned seed hseed hnone).bind
    fun isStart s₁ h => ?_
  obtain ⟨rfl, hstart⟩ := h
  cases isStart with
  | true => exact sown_plant hA hs fun _ => hstart
  | false => exact Ensures.throw (hA.seed seed hseed hstart)

/-- A run that begins does so with its seeds: those of the entries
first, and then those of the problem. -/
theorem sown_begin (hA : Admits S (S.view graph) E) :
    Ensures E (begin S)
      (fun _ s' => Sown S graph (S.seedsOn (S.view graph)) s' ∧
        s'.seenRevision = (S.view graph).revision) (State.start S graph) := by
  have hvalid : Ensures E (validate S) (fun _ s' => s' = State.start S graph)
      (State.start S graph) := by
    unfold validate
    split
    next v hv => exact Ensures.throw (hA.lattice v hv)
    next => exact Ensures.pure rfl
  refine hvalid.bind fun _ s₁ h => ?_
  rw [h]
  unfold plantAll
  split
  next hnone =>
    simp only [Bool.and_eq_true, List.isEmpty_iff] at hnone
    exact Ensures.throw (hA.noSeeds hnone.1 hnone.2)
  next =>
    have hstart := sown_start S graph
    refine (ensures_plantEach (fun p hp => sown_plantEntry hA hp) hstart).bind
      fun _ s₁ h₁ => ?_
    refine (ensures_plantEach
      (fun seed hseed => sown_plantSeed hA hseed) h₁).bind
      fun _ s₂ h₂ => ?_
    rw [List.nil_append, ← seedsOn_eq] at h₂
    refine Ensures.get_bind (Ensures.modify ⟨?_, ?_⟩)
    · exact ⟨h₂.graph_eq, h₂.seeds_eq, h₂.atStart, h₂.facts_eq, h₂.recorded,
        h₂.row, h₂.pending, h₂.incoming_eq, h₂.summaries_eq, h₂.callFlows_eq,
        h₂.known_eq, h₂.exploded_eq, h₂.incomingEdges_eq, h₂.bodiless_eq,
        h₂.iterations_eq, h₂.uncancelled⟩
    · show (S.view s₂.graph).revision = _
      rw [h₂.graph_eq]

/-- The same of a run that did begin. -/
theorem sown_of_begin (hbegin : begin S (State.start S graph) = .ok () s) :
    Sown S graph (S.seedsOn (S.view graph)) s ∧
    s.seenRevision = (S.view graph).revision := by
  have hA : Admits S (S.view graph) fun _ => True :=
    ⟨fun _ _ => trivial, fun _ _ => trivial, fun _ _ _ => trivial,
      fun _ _ _ => trivial, fun _ _ _ => trivial, fun _ _ _ _ _ => trivial⟩
  exact (sown_begin hA).of_ok hbegin

end Planting

-- ================================================================== turns

section Turns

variable [DecidableEq L]

/-- Call sites that have grown are made pending again, if there are
any. -/
private theorem turned_grown (hs : s.worklist = [])
    (hseen : (S.view s.graph).revision ≠ s.seenRevision) (grown : List Node) :
    Turned S s
      (if !(grown.flatMap s.edgesAt).isEmpty then none else some .complete)
      (relisted s (s.worklist ++ grown.flatMap s.edgesAt)
        (S.view s.graph).revision s.stats.worklistIterations
        (s.stats.calleeRescans + grown.length)) := by
  rw [hs, List.nil_append]
  cases hpending : grown.flatMap s.edgesAt with
  | nil => exact .ended hs
  | cons e rest =>
    refine .rescanned hs hseen fun {e'} he => ?_
    rw [← hpending] at he
    obtain ⟨n, _, he⟩ := List.mem_flatMap.mp he
    exact (State.mem_edgesAt.mp he).2

/-- Looking for call sites that have grown is a turn of its own: it
makes some pending, or nothing is left. -/
theorem ensures_rescan_of (hs : s.worklist = []) :
    Ensures E (rescan S)
      (fun more s' =>
        Turned S s (if more then none else some .complete) s') s := by
  unfold rescan
  refine Ensures.get_bind ?_
  dsimp only
  split
  next hseen =>
    refine Ensures.pure ?_
    have hended : Turned S s (some .complete)
        (relisted s [] (S.view s.graph).revision s.stats.worklistIterations
        s.stats.calleeRescans) := .ended hs
    rw [hseen, ← hs] at hended
    exact hended
  next hseen =>
    exact Ensures.modify_bind (Ensures.pure (turned_grown hs hseen _))

variable [DecidableEq W]

/-- Every turn is of one of the four kinds. This is the step lemma for
whatever the loop is said to keep. -/
theorem turned_turn (hG : Guards S I₀ Inv E) (hs : Inv s) :
    Ensures E (turn S) (fun status? s' => Turned S s status? s') s := by
  unfold turn
  refine (ensures_next? s).bind fun e? s₁ h => ?_
  rcases h with ⟨rfl, _, hnil, rfl⟩ | ⟨e, rest, rfl, _, rfl, hperm⟩
  · refine (ensures_rescan_of hnil).bind fun more s₂ h => ?_
    cases more with
    | true => exact Ensures.pure h
    | false => exact Ensures.pure h
  · refine Ensures.get_bind ?_
    dsimp only
    split
    next reason hstop =>
      exact Ensures.modify_bind (Ensures.pure (.stopped hstop))
    next =>
      refine Ensures.modify_bind ?_
      have hrec : ∀ {e'}, e' ∈ e :: rest → Recorded s e' :=
        fun he => (hG.kept hs).pending (hperm.mem_iff.mpr he)
      have hs₁ := hG.relist hs (fun he => hrec (List.mem_cons_of_mem _ he))
        s.seenRevision (s.stats.worklistIterations + 1) s.stats.calleeRescans
      refine (processed_process hG hs₁ (hrec List.mem_cons_self)).bind
        fun _ s₂ h => ?_
      exact Ensures.pure (.followed hperm h)

/-- A turn ensures what following a path edge ensures and lists of
pending path edges do not matter to. Unlike `turned_turn` this needs
nothing to rely on. -/
theorem ensures_turn_of {P : State D W L → Prop}
    (hrelist : ∀ pending seen iterations rescans,
      P (relisted s pending seen iterations rescans))
    (hprocess : ∀ e rest iterations, Ensures E (process S e) (fun _ s' => P s')
      (relisted s rest s.seenRevision iterations s.stats.calleeRescans)) :
    Ensures E (turn S) (fun _ s' => P s') s := by
  unfold turn
  refine (ensures_next? s).bind fun e? s₁ h => ?_
  rcases h with ⟨rfl, _, hnil, rfl⟩ | ⟨e, rest, rfl, _, rfl, _⟩
  · refine (ensures_rescan_of hnil).bind fun more s₂ h => ?_
    have hs₂ : P s₂ := by
      cases more with
      | true =>
        cases h with
        | followed hperm _ =>
          rw [hnil] at hperm
          exact absurd hperm.length_eq nofun
        | rescanned _ _ _ => exact hrelist ..
      | false =>
        cases h with
        | ended _ => exact hrelist ..
    cases more with
    | true => exact Ensures.pure hs₂
    | false => exact Ensures.pure hs₂
  · refine Ensures.get_bind ?_
    dsimp only
    split
    · exact Ensures.modify_bind (Ensures.pure
        (hrelist [] s.seenRevision s.stats.worklistIterations
          s.stats.calleeRescans))
    · refine Ensures.modify_bind ?_
      exact (hprocess e rest (s.stats.worklistIterations + 1)).bind fun _ _ h =>
        Ensures.pure h

end Turns

-- ===================================================== what turns preserve

theorem Noted.relisted {edge : FlowEdge} {d : D} {ts : List (D × W)}
    (h : Noted S s edge d ts) (pending : List (PathEdge D))
    (seen iterations rescans : Nat) :
    Noted S (relisted s pending seen iterations rescans) edge d ts :=
  ⟨h.answered, h.facts, h.edges⟩

theorem NotedAt.relisted {e : PathEdge D} (h : NotedAt S s e)
    (pending : List (PathEdge D)) (seen iterations rescans : Nat) :
    NotedAt S (relisted s pending seen iterations rescans) e where
  normal := fun hcall hexit m hm => (h.normal hcall hexit m hm).relisted ..
  pass := fun hcall r hr => (h.pass hcall r hr).relisted ..

/-- When nothing is pending, anything may be made pending again. -/
theorem Attended.relisted (hs : Attended S s) (hnil : s.worklist = [])
    (pending : List (PathEdge D)) (seen iterations rescans : Nat) :
    Attended S (relisted s pending seen iterations rescans) := by
  intro e he
  rcases hs e he with hmem | hnoted
  · rw [hnil] at hmem
    exact absurd hmem List.not_mem_nil
  · exact Or.inr (hnoted.relisted ..)

variable [DecidableEq L]

/-- A turn that is not the last keeps path edges attended: the one
taken up has its flows noted, and one whose jump function changed is
pending. -/
theorem Attended.turned (hsteady : S.IsSteady) (hs : Attended S s)
    (h : Turned S s none s') : Attended S s' := by
  cases h with
  | rescanned hnil _ _ => exact hs.relisted hnil _ _ _ _
  | @followed e rest _ hperm hprocessed =>
    have hgrows := hprocessed.course.grows hsteady
    intro e' he'
    -- the edge just followed is noted; any other is as it was, or pending
    by_cases heq : e' = e
    · exact Or.inr (heq ▸ hprocessed.noted)
    · rcases hgrows.changed e' with hsame | hpending
      · have hold : Recorded s e' := by
          obtain ⟨w, hw⟩ := he'
          exact ⟨w, hsame.symm.trans hw⟩
        rcases hs e' hold with hmem | hnoted
        · have hmem : e' ∈ rest :=
            (List.mem_cons.mp (hperm.mem_iff.mp hmem)).resolve_left heq
          exact Or.inl (hgrows.worklist hmem)
        · exact Or.inr ((hnoted.relisted ..).grow hgrows)
      · exact Or.inl hpending

theorem Filled.turned (hs : Filled S s) {status? : Option Status}
    (h : Turned S s status? s') : Filled S s' := by
  cases h with
  | followed _ hprocessed => exact hprocessed.filled hs
  | _ => exact hs

/-- Any turn leaves tables ready, since following a path edge enters
callees with all that their call flows hold. -/
theorem Ready.turned (hsteady : S.IsSteady) (hs : Ready S s)
    {status? : Option Status} (h : Turned S s status? s') : Ready S s' where
  seed := by
    cases h with
    | followed _ hprocessed =>
      have hgrows := hprocessed.course.grows hsteady
      intro seed hseed
      rw [hgrows.seeds] at hseed
      exact hgrows.recorded (hs.seed seed hseed)
    | _ => exact hs.seed
  filled := hs.filled.turned h

/-- Where failures do not matter, anything that strides keep may be
relied on along a run. -/
theorem guards_of_kept {Also : State D W L → Prop} (hsteady : S.IsSteady)
    (hstride : ∀ {s s'}, Kept S I₀ s → Also s → Stride S s s' → Also s')
    (hrelist : ∀ {s}, Also s → ∀ pending seen iterations rescans,
      Also (relisted s pending seen iterations rescans)) :
    Guards S I₀ (fun s => Kept S I₀ s ∧ Also s) fun _ => True where
  steady := hsteady
  kept := fun hs => hs.1
  stride := fun hs h => ⟨hs.1.stride hsteady h, hstride hs.1 hs.2 h⟩
  relist := fun hs hpending seen iterations rescans =>
    ⟨hs.1.relisted hpending seen iterations rescans, hrelist hs.2 ..⟩
  gap := fun _ => trivial
  fault := fun _ _ => trivial
  regress := fun _ _ _ _ => trivial

theorem guards_kept (I₀ : Icfg) (hsteady : S.IsSteady) :
    Guards S I₀ (fun s => Kept S I₀ s ∧ True) fun _ => True :=
  guards_of_kept hsteady (fun _ _ _ => trivial) fun _ _ _ _ _ => trivial

/-- What may be relied on at every moment may be relied on between
turns. -/
theorem Guards.turned (hG : Guards S I₀ Inv E) (hs : Inv s)
    {status? : Option Status} (h : Turned S s status? s') : Inv s' := by
  cases h with
  | followed hperm hprocessed =>
    have hrest := hG.relist hs (fun he => (hG.kept hs).pending
      (hperm.mem_iff.mpr (List.mem_cons_of_mem _ he))) s.seenRevision
      (s.stats.worklistIterations + 1) s.stats.calleeRescans
    exact hG.course hrest hprocessed.course
  | rescanned _ _ hpending => exact hG.relist hs hpending ..
  | stopped _ => exact hG.relist hs (fun he => absurd he List.not_mem_nil) ..
  | ended _ => exact hG.relist hs (fun he => absurd he List.not_mem_nil) ..

-- =============================================================== the loop

section Loop

variable [DecidableEq W] {J : State D W L → Prop}
variable {Q : Status → State D W L → Prop}

/-- A loop goes on from what a turn that goes on ensures, and ends with
what its last turn does. The induction is on the fuel, and running out
of it has to be allowed. -/
theorem ensures_turns (hfuel : E .outOfFuel)
    (hturn : ∀ {s}, J s → Ensures E (turn S) (fun status? s' =>
      (status? = none → J s') ∧ ∀ status, status? = some status →
      Q status s') s) (fuel : Nat) (hs : J s) :
    Ensures E (tabulate S fuel) Q s := by
  induction fuel generalizing s with
  | zero => exact Ensures.throw hfuel
  | succ fuel ih =>
    unfold tabulate
    refine (hturn hs).bind fun status? s' h => ?_
    cases status? with
    | some status => exact Ensures.pure (h.2 status rfl)
    | none => exact ih (h.1 rfl)

/-- What every turn keeps, the loop keeps. -/
theorem ensures_loop (hG : Guards S I₀ Inv E) (hJ : ∀ {s}, J s → Inv s)
    (hfuel : E .outOfFuel) (hgo : ∀ {s s'}, J s → Turned S s none s' → J s')
    (hend : ∀ {s s' status}, J s → Turned S s (some status) s' → Q status s')
    (fuel : Nat) (hs : J s) : Ensures E (tabulate S fuel) Q s := by
  refine ensures_turns hfuel (fun hs => ?_) fuel hs
  refine (turned_turn hG (hJ hs)).mono fun status? s' h =>
    ⟨fun hnone => ?_, fun status hsome => ?_⟩
  · exact hgo hs (hnone ▸ h)
  · exact hend hs (hsome ▸ h)

/-- What may be relied on at every moment may be relied on at the end. -/
theorem Guards.tabulate (hG : Guards S I₀ Inv E) (hfuel : E .outOfFuel)
    (fuel : Nat) (hs : Inv s) :
    Ensures E (tabulate S fuel) (fun _ s' => Inv s') s :=
  ensures_loop hG id hfuel (fun hs h => hG.turned hs h)
    (fun hs h => hG.turned hs h) fuel hs

/-- What every turn keeps holds at the end, where failures do not
matter. -/
theorem ensures_kept (hsteady : S.IsSteady)
    (hgo : ∀ {s s' status?}, Kept S I₀ s → J s → Turned S s status? s' → J s')
    (fuel : Nat) (hkept : Kept S I₀ s) (hs : J s) :
    Ensures (fun _ => True) (tabulate S fuel)
      (fun _ s' => Kept S I₀ s' ∧ J s') s := by
  have hG := guards_kept I₀ hsteady
  have hturn : ∀ {s s' status?}, Kept S I₀ s ∧ J s → Turned S s status? s' →
      Kept S I₀ s' ∧ J s' :=
    fun hs h => ⟨(hG.turned ⟨hs.1, trivial⟩ h).1, hgo hs.1 hs.2 h⟩
  exact ensures_loop hG (fun hs => ⟨hs.1, trivial⟩) trivial hturn hturn
    fuel ⟨hkept, hs⟩

/-- From tables that are ready, the loop leads to tables that are
ready. -/
theorem ensures_ready (hsteady : S.IsSteady) (fuel : Nat) (hkept : Kept S I₀ s)
    (hs : Ready S s) :
    Ensures (fun _ => True) (tabulate S fuel)
      (fun _ s' => Kept S I₀ s' ∧ Ready S s') s :=
  ensures_kept hsteady (fun _ hs h => hs.turned hsteady h) fuel hkept hs

/-- When a loop has ended by itself, the flows out of all path edges
are noted. -/
theorem noted_of_tabulate (hsteady : S.IsSteady) {fuel : Nat}
    (hkept : Kept S I₀ s) (hs : Attended S s)
    (hloop : tabulate S fuel s = .ok .complete s') {e : PathEdge D}
    (he : Recorded s' e) : NotedAt S s' e := by
  have hG := guards_kept I₀ hsteady
  have hend : Ensures (fun _ => True) (tabulate S fuel)
      (fun status s' => status = .complete → ∀ e, Recorded s' e →
        NotedAt S s' e) s := by
    refine ensures_loop (J := fun s => Kept S I₀ s ∧ Attended S s) hG
      (fun hs => ⟨hs.1, trivial⟩) trivial
      (fun hs h => ⟨(hG.turned ⟨hs.1, trivial⟩ h).1, hs.2.turned hsteady h⟩)
      (fun hs h hcomplete e he => ?_) fuel ⟨hkept, hs⟩
    subst hcomplete
    cases h with
    | ended hnil =>
      rcases hs.2 e he with hmem | hnoted
      · rw [hnil] at hmem
        exact absurd hmem List.not_mem_nil
      · exact hnoted.relisted ..
  exact hend.of_ok hloop rfl e he

/-- If every turn makes a measure smaller, the loop comes to an end.
How much fuel that takes is not said. -/
theorem halts_loop {α : Type} [Preorder α] [WellFoundedLT α]
    (size : State D W L → α) (hG : Guards S I₀ Inv E) (hJ : ∀ {s}, J s → Inv s)
    (hgo : ∀ {s s'}, J s → Turned S s none s' → J s' ∧ size s' < size s)
    (hend : ∀ {s s' status}, J s → Turned S s (some status) s' → Q status s')
    (hs : J s) : Halts E (tabulate S) Q s := by
  induction hsize : size s using WellFoundedLT.induction generalizing s with
  | ind a ih =>
    refine Halts.succ ?_
    simp only [tabulate]
    refine Halts.bind (.of_ensures (turned_turn hG (hJ hs)))
      fun status? s' h => ?_
    cases status? with
    | some status => exact .of_ensures (Ensures.pure (hend hs h))
    | none =>
      obtain ⟨hs', hless⟩ := hgo hs h
      exact ih (size s') (hsize ▸ hless) hs' rfl

end Loop

end Tabulation.Solver
