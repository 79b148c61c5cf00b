/-
What a run has written down when it is over.

Beside the path edges a run keeps books: the facts it has numbered, the
exploded edges it has recorded, the callers, the callees met, the call
flows. The order of the entries depends on the order of the run. Which
entries there are does not, and that is said here: a complete run has
noted a flow if and only if its tables give reason to evaluate it.

# Nothing without a reason

Every entry rests on path edges that are on record (`Grounded`), and no
entry is there twice (`Counted`). Both are kept by every stride.

# Nothing left out

That every flow is noted holds of the path edges that are not pending,
so it is a matter of turns (`Accounted`): the edge taken up has its
flows noted while it is followed, a path edge whose jump function
changes is pending again, and what is noted stays noted. Returns have a
caller and a summary behind them and are noted when the later of the
two comes (`Balanced`).
-/
import Mathlib.Data.List.Nodup
import Tabulation.Flow.WellFormed
import Tabulation.Proofs.Solver.Turns

namespace Tabulation

/-- What is added to a listing comes after what it had, and only what
it did not have. -/
private theorem Listing.addAll_eq_append {α : Type} [DecidableEq α]
    {ys : List α} (h : ys.Nodup) (xs : List α) :
    addAll xs ys = xs ++ ys.filter fun y => decide (y ∉ xs) := by
  induction ys generalizing xs with
  | nil => exact (List.append_nil xs).symm
  | cons y ys ih =>
    obtain ⟨hy, hys⟩ := List.nodup_cons.mp h
    have hrest : addAll xs (y :: ys) = addAll (add xs y) ys := rfl
    have hfilter : (ys.filter fun z => decide (z ∉ add xs y)) =
        ys.filter fun z => decide (z ∉ xs) := by
      refine List.filter_congr fun z hz => ?_
      have hne : z ≠ y := fun heq => hy (heq ▸ hz)
      simp [mem_add, hne]
    rw [hrest, ih hys, hfilter]
    unfold add
    by_cases hmem : y ∈ xs
    · simp [hmem]
    · simp [hmem]

namespace Solver

variable {D W L : Type} [DecidableEq D]

section Vocabulary

variable (S : Setup D W L)

/-- There is a reason to number the fact: it is zero, a seed starts
from it, or a flow yields it. -/
def FactBacked (s : State D W L) (d : D) : Prop :=
  d = S.problem.zero ∨ (∃ seed ∈ s.seeds, seed.fact = d) ∨
    ∃ edge d' ts, Crosses S s edge d' ts ∧ d ∈ ts.map Prod.fst

/-- There is a reason to record the exploded edge: edges are recorded,
and a flow along it yields its target. -/
def EdgeBacked (s : State D W L) (x : ExplodedEdge D) : Prop :=
  S.config.recordEdges = true ∧
    ∃ edge d ts, Crosses S s edge d ts ∧ ∃ t ∈ ts, x = .along edge d t.1

/-- There is a reason to know the callee at the call site: some path
edge ends there, and the graph lists the callee. -/
def CalleeBacked (s : State D W L) (c : Node) (g : Proc) : Prop :=
  (∃ source target, Recorded s ⟨source, c, target⟩) ∧
    (S.view s.graph).isCall c = true ∧ g ∈ (S.view s.graph).callees c

/-- Every entry of the books has a reason. -/
structure Grounded (s : State D W L) : Prop where
  fact : ∀ {d}, d ∈ s.facts → FactBacked S s d
  exploded : ∀ {x}, x ∈ s.exploded → EdgeBacked S s x
  known : ∀ {c g}, (c, g) ∈ s.known → CalleeBacked S s c g
  callFlow : ∀ {c g d ts}, s.callFlows.get? c (g, d) = some ts →
    ∃ source, Recorded s ⟨source, c, d⟩
  /-- The facts of seeds are numbered. -/
  seed : ∀ seed ∈ s.seeds, seed.fact ∈ s.facts

/-- No entry of the books is there twice, and the counter of callers is
right. -/
structure Counted (s : State D W L) : Prop where
  nodup_facts : s.facts.Nodup
  nodup_known : s.known.Nodup
  nodup_incoming : s.incoming.Nodup
  incomingEdges : s.stats.incomingEdges = s.incoming.length

/-- The books are in order as far as path edges were followed. It is
what a turn keeps. -/
structure Accounted (graph : FlowGraph) (s : State D W L) : Prop where
  kept : Kept S (S.view graph) s
  grounded : Grounded S s
  counted : Counted s
  graph_eq : s.graph = graph
  balanced : Balanced S s
  attended : Attended S s
  bodiless : s.stats.bodilessCallees =
    (s.known.filter fun k => decide ((S.view graph).start? k.2 = none)).length

end Vocabulary

variable {S : Setup D W L} {graph : FlowGraph} {s s' : State D W L}

-- ================================================================ reasons

/-- Reasons are not lost when tables grow, since the path edges they
rest on stay. -/
theorem FactBacked.grow (h : Grows S s s') {d : D} (hd : FactBacked S s d) :
    FactBacked S s' d := by
  rcases hd with hzero | ⟨seed, hseed, heq⟩ | ⟨edge, d', ts, hx, hmem⟩
  · exact Or.inl hzero
  · rw [← h.seeds] at hseed
    exact Or.inr (Or.inl ⟨seed, hseed, heq⟩)
  · exact Or.inr (Or.inr ⟨edge, d', ts, hx.grow h, hmem⟩)

theorem EdgeBacked.grow (h : Grows S s s') {x : ExplodedEdge D}
    (hx : EdgeBacked S s x) : EdgeBacked S s' x := by
  obtain ⟨hon, edge, d, ts, hcross, ht⟩ := hx
  exact ⟨hon, edge, d, ts, hcross.grow h, ht⟩

theorem CalleeBacked.grow (h : Grows S s s') {c : Node} {g : Proc}
    (hk : CalleeBacked S s c g) : CalleeBacked S s' c g := by
  obtain ⟨⟨source, target, he⟩, hcall, hg⟩ := hk
  refine ⟨⟨source, target, h.recorded he⟩, ?_, h.view.callees hg⟩
  rw [h.view.isCall]
  exact hcall

/-- Old entries keep their reasons, and new ones have to have some. -/
theorem Grounded.grow (hs : Grounded S s) (h : Grows S s s')
    (hfact : ∀ {d}, d ∈ s'.facts → d ∈ s.facts ∨ FactBacked S s' d)
    (hexploded : ∀ {x}, x ∈ s'.exploded → x ∈ s.exploded ∨ EdgeBacked S s' x)
    (hknown : ∀ {c g}, (c, g) ∈ s'.known → (c, g) ∈ s.known ∨
      CalleeBacked S s' c g)
    (hflow : ∀ {c g d ts}, s'.callFlows.get? c (g, d) = some ts →
      s.callFlows.get? c (g, d) = some ts ∨
      ∃ source, Recorded s' ⟨source, c, d⟩) : Grounded S s' where
  fact := fun hd => (hfact hd).elim (fun hold => (hs.fact hold).grow h) id
  exploded := fun hx => (hexploded hx).elim
    (fun hold => (hs.exploded hold).grow h) id
  known := fun hk => (hknown hk).elim (fun hold => (hs.known hold).grow h) id
  callFlow := by
    intro c g d ts ht
    rcases hflow ht with hold | hnew
    · obtain ⟨source, he⟩ := hs.callFlow hold
      exact ⟨source, h.recorded he⟩
    · exact hnew
  seed := by
    rw [h.seeds]
    exact fun seed hseed => h.facts (hs.seed seed hseed)

/-- A list of pending path edges is no reason for anything. -/
theorem Crosses.relisted {edge : FlowEdge} {d : D} {ts : List (D × W)}
    (h : Crosses S s edge d ts) (pending : List (PathEdge D))
    (seen iterations rescans : Nat) :
    Crosses S (relisted s pending seen iterations rescans) edge d ts := by
  cases h with
  | normal he hcall hexit hm => exact .normal he hcall hexit hm
  | call he henter => exact .call he henter
  | ret hi hk hstart hentry hr => exact .ret hi hk hstart hentry hr
  | pass he hcall hr => exact .pass he hcall hr

theorem Grounded.relisted (hs : Grounded S s) (pending : List (PathEdge D))
    (seen iterations rescans : Nat) :
    Grounded S (relisted s pending seen iterations rescans) where
  fact := by
    intro d hd
    rcases hs.fact hd with hzero | hseed | ⟨edge, d', ts, hx, hmem⟩
    · exact Or.inl hzero
    · exact Or.inr (Or.inl hseed)
    · exact Or.inr (Or.inr ⟨edge, d', ts, hx.relisted .., hmem⟩)
  exploded := by
    intro x hx
    obtain ⟨hon, edge, d, ts, hcross, ht⟩ := hs.exploded hx
    exact ⟨hon, edge, d, ts, hcross.relisted .., ht⟩
  known := hs.known
  callFlow := hs.callFlow
  seed := hs.seed

section Steps

variable [DecidableEq L]

/-- A move writes down what the flow it crosses gives reason for, and
nothing else. -/
theorem Grounded.move (hsteady : S.IsSteady) (hs : Grounded S s)
    (h : Move S s s') : Grounded S s' := by
  have hgrows := h.grows hsteady
  cases h with
  | serve edge d =>
    rw [served_eq] at hgrows ⊢
    exact hs.grow hgrows Or.inl Or.inl Or.inl Or.inl
  | @cross edge d ts facts hx hfacts =>
    refine hs.grow hgrows (fun {e} he => ?_) (fun {x} he => ?_) Or.inl Or.inl
    · rcases Listing.mem_addAll.mp he with hold | hnew
      · exact Or.inl hold
      · exact Or.inr
          (Or.inr (Or.inr ⟨edge, d, ts, hx.grow hgrows, hfacts e hnew⟩))
    · unfold logged at he
      dsimp only at he
      split at he
      next hon =>
        rcases List.mem_append.mp he with hnew | hold
        · obtain ⟨t, ht, rfl⟩ := List.mem_map.mp (List.mem_reverse.mp hnew)
          exact Or.inr ⟨hon, edge, d, ts, hx.grow hgrows, t, ht, rfl⟩
        · exact Or.inl hold
      next => exact Or.inl he
  | _ => exact hs.grow hgrows Or.inl Or.inl Or.inl Or.inl

/-- A stride puts a call flow or callees on record for a path edge at
the call. -/
theorem Grounded.stride (hsteady : S.IsSteady) (hs : Grounded S s)
    (h : Stride S s s') : Grounded S s' := by
  have hgrows := h.grows hsteady
  cases h with
  | move hmove => exact hs.move hsteady hmove
  | @cache c start g d hx _ _ =>
    refine hs.grow hgrows Or.inl Or.inl Or.inl fun {c' g' d' ts} ht => ?_
    rw [Grid.get?_insert] at ht
    split at ht
    next hk =>
      obtain ⟨rfl, hk⟩ := hk
      obtain ⟨rfl, rfl⟩ := Prod.mk.injEq .. ▸ hk
      obtain ⟨⟨source, he⟩, _⟩ := hx.exists_caller
      exact Or.inr ⟨source, hgrows.recorded he⟩
    next => exact Or.inl ht
  | @acquaint e he hcall =>
    refine hs.grow hgrows Or.inl Or.inl (fun {c g} hk => ?_) Or.inl
    rcases mem_known_acquaint.mp hk with hold | ⟨rfl, hg⟩
    · exact Or.inl hold
    · exact Or.inr ⟨⟨e.source, e.target, he⟩, hcall, hg⟩
  | _ => exact hs.grow hgrows Or.inl Or.inl Or.inl Or.inl

-- ================================================================= counts

/-- Entries are only made if they are not there, and a caller is
counted when it is put on record. -/
theorem Counted.stride (hs : Counted s) (h : Stride S s s') : Counted s' := by
  cases h with
  | move hmove =>
    cases hmove with
    | serve edge d =>
      rw [served_eq]
      exact ⟨hs.nodup_facts, hs.nodup_known, hs.nodup_incoming,
          hs.incomingEdges⟩
    | cross _ _ =>
      exact ⟨Listing.nodup_addAll hs.nodup_facts _, hs.nodup_known,
        hs.nodup_incoming, hs.incomingEdges⟩
    | _ =>
      exact ⟨hs.nodup_facts, hs.nodup_known, hs.nodup_incoming,
          hs.incomingEdges⟩
  | @enter i g ts hnew _ _ =>
    refine ⟨hs.nodup_facts, hs.nodup_known, ?_, ?_⟩
    · refine List.nodup_append.mpr
        ⟨hs.nodup_incoming, List.nodup_singleton i, ?_⟩
      intro a ha b hb hab
      rw [List.mem_singleton.mp hb] at hab
      exact hnew (hab ▸ ha)
    · show s.stats.incomingEdges + 1 = _
      rw [hs.incomingEdges, List.length_append]
      rfl
  | acquaint _ _ =>
    exact ⟨hs.nodup_facts, Listing.nodup_addAll hs.nodup_known _,
      hs.nodup_incoming, hs.incomingEdges⟩
  | _ =>
    exact ⟨hs.nodup_facts, hs.nodup_known, hs.nodup_incoming, hs.incomingEdges⟩

end Steps

-- ================================================================== turns

/-- What the loop begins with is accounted for: nothing is followed
yet, and all is pending. -/
theorem Sown.accounted (hs : Sown S graph (S.seedsOn (S.view graph)) s) :
    Accounted S graph s where
  kept := hs.kept
  grounded := by
    refine ⟨fun {d} hd => ?_, fun {x} hx => ?_, fun {c g} hk => ?_,
      fun {c g d ts} ht => ?_, fun seed hseed => ?_⟩
    · rw [hs.facts_eq] at hd
      rcases Listing.mem_addAll.mp hd with hzero | hseed
      · exact Or.inl (List.mem_singleton.mp hzero)
      · obtain ⟨seed, hseed, heq⟩ := List.mem_map.mp hseed
        rw [← hs.seeds_eq] at hseed
        exact Or.inr (Or.inl ⟨seed, hseed, heq⟩)
    · rw [hs.exploded_eq] at hx
      exact absurd hx List.not_mem_nil
    · rw [hs.known_eq] at hk
      exact absurd hk List.not_mem_nil
    · rw [hs.callFlows_eq] at ht
      cases ht
    · rw [hs.seeds_eq] at hseed
      rw [hs.facts_eq]
      exact Listing.mem_addAll.mpr
        (Or.inr (List.mem_map.mpr ⟨seed, hseed, rfl⟩))
  -- before the first turn, the tables that are counted are empty
  counted := by
    refine ⟨?_, ?_, ?_, ?_⟩
    · rw [hs.facts_eq]
      exact Listing.nodup_addAll (List.nodup_singleton _) _
    · rw [hs.known_eq]
      exact List.nodup_nil
    · rw [hs.incoming_eq]
      exact List.nodup_nil
    · rw [hs.incomingEdges_eq, hs.incoming_eq]
      rfl
  graph_eq := hs.graph_eq
  balanced := by
    intro i k r hi
    rw [hs.incoming_eq] at hi
    exact absurd hi List.not_mem_nil
  attended := fun e he => Or.inl (hs.pending.mpr he)
  bodiless := by
    rw [hs.bodiless_eq, hs.known_eq]
    rfl

/-- The callees met are counted once each if they have no body. The
graph must not list a callee twice at one site, or it would be counted
twice. -/
theorem Accounted.bodiless_of_processed (hs : Accounted S graph s)
    (honce : ∀ c, ((S.view graph).callees c).Nodup) {e : PathEdge D}
    (hknown : s'.known =
      Listing.addAll s.known ((calleesAt (S.view graph) e.node).map fun g =>
        (e.node, g)))
    (hbodiless : s'.stats.bodilessCallees = s.stats.bodilessCallees +
      ((calleesAt (S.view graph) e.node).filter fun g =>
        decide ((S.view graph).start? g = none ∧
          (e.node, g) ∉ s.known)).length) :
    s'.stats.bodilessCallees =
      (s'.known.filter fun k =>
        decide ((S.view graph).start? k.2 = none)).length := by
  have hnodup : ((calleesAt (S.view graph) e.node).map fun g =>
        (e.node, g)).Nodup := by
    refine List.Nodup.map (fun a b h => (Prod.mk.inj h).2) ?_
    unfold calleesAt
    split
    · exact honce e.node
    · exact List.nodup_nil
  rw [hbodiless, hknown, Listing.addAll_eq_append hnodup, List.filter_append,
    List.length_append, hs.bodiless, List.filter_filter, List.filter_map,
    List.length_map]
  congr 2
  refine List.filter_congr fun g _ => ?_
  simp

theorem Balanced.relisted (hs : Balanced S s) (pending : List (PathEdge D))
    (seen iterations rescans : Nat) :
    Balanced S (relisted s pending seen iterations rescans) := by
  intro i k r hi hk hstart hentry hr
  exact (hs i k r hi hk hstart hentry hr).relisted ..

omit [DecidableEq D] in
theorem Counted.relisted (hs : Counted s) (pending : List (PathEdge D))
    (seen iterations rescans : Nat) :
    Counted (relisted s pending seen iterations rescans) :=
  ⟨hs.nodup_facts, hs.nodup_known, hs.nodup_incoming, hs.incomingEdges⟩

/-- When nothing is pending, anything on record may be made pending
again. The books do not change with it. -/
theorem Accounted.relisted (hs : Accounted S graph s) (hnil : s.worklist = [])
    {pending : List (PathEdge D)} (hpending : ∀ {e}, e ∈ pending → Recorded s e)
    (seen iterations rescans : Nat) :
    Accounted S graph (relisted s pending seen iterations rescans) where
  kept := hs.kept.relisted hpending seen iterations rescans
  grounded := hs.grounded.relisted ..
  counted := hs.counted.relisted ..
  graph_eq := hs.graph_eq
  balanced := hs.balanced.relisted _ _ _ _
  attended := hs.attended.relisted hnil _ _ _ _
  bodiless := hs.bodiless

section Loop

variable [DecidableEq L]

/-- Where nothing is asked for, the books may be relied on along a run. -/
theorem guards_of_grounded (hpure : S.problem.IsPure) :
    Guards S (S.view graph) (fun s => Kept S (S.view graph) s ∧ Grounded S s ∧
      Counted s ∧ s.graph = graph) fun _ => True := by
  have hsteady := Setup.isSteady_of_isPure hpure
  refine guards_of_kept hsteady (fun {s s'} _ hs h => ?_)
    fun {s} hs pending seen iterations rescans => ?_
  · exact ⟨hs.1.stride hsteady h, hs.2.1.stride h,
        (h.graph_eq hpure).trans hs.2.2⟩
  · exact ⟨hs.1.relisted .., hs.2.1.relisted .., hs.2.2⟩

/-- A turn that is not the last keeps the books in order: the path edge
that was taken up has its flows noted when the turn is over. -/
theorem Accounted.turned (hpure : S.problem.IsPure)
    (honce : ∀ c, ((S.view graph).callees c).Nodup) (hs : Accounted S graph s)
    (h : Turned S s none s') : Accounted S graph s' := by
  have hattended := hs.attended.turned (Setup.isSteady_of_isPure hpure) h
  obtain ⟨hkept, hgrounded, hcounted, hgraph'⟩ :=
    (guards_of_grounded hpure).turned ⟨hs.kept, hs.grounded, hs.counted,
    hs.graph_eq⟩ h
  cases h with
  | rescanned hnil _ hpending => exact hs.relisted hnil hpending _ _ _
  | @followed e rest _ hperm hprocessed =>
    refine ⟨hkept, hgrounded, hcounted, hgraph',
      hprocessed.balanced (hs.balanced.relisted _ _ _ _), hattended, ?_⟩
    have hknown := hprocessed.known
    have hbodiless := hprocessed.bodiless
    have hgraph :
        (Solver.relisted s rest s.seenRevision (s.stats.worklistIterations + 1)
        s.stats.calleeRescans).graph = graph := hs.graph_eq
    rw [hgraph] at hknown hbodiless
    exact hs.bodiless_of_processed honce hknown hbodiless

variable [DecidableEq W]

/-- A complete run is accounted for, and nothing is pending. The
induction over turns is that of the loop. -/
private theorem accounted_of_tabulate (hpure : S.problem.IsPure)
    (honce : ∀ c, ((S.view graph).callees c).Nodup) {s₁ : State D W L}
    {fuel : Nat} (hbegin : begin S (State.start S graph) = .ok () s₁)
    (hloop : tabulate S fuel s₁ = .ok .complete s) :
    Accounted S graph s ∧ s.worklist = [] := by
  have hend : Ensures (fun _ => True) (tabulate S fuel)
      (fun status s' => status = .complete → Accounted S graph s' ∧
        s'.worklist = []) s₁ := by
    refine ensures_loop (guards_of_grounded hpure)
      (fun hs => ⟨hs.kept, hs.grounded, hs.counted, hs.graph_eq⟩) trivial
      (fun hs h => hs.turned hpure honce h)
        (fun {s s' status} hs h hstatus => ?_) fuel
      (sown_of_begin hbegin).1.accounted
    subst hstatus
    cases h with
    | ended hnil =>
      exact ⟨hs.relisted hnil (fun he => absurd he List.not_mem_nil) _ _ _, rfl⟩
  exact hend.of_ok hloop rfl

-- ================================================= what is written in the end

/-- The tables of a run that is over: in order, with nothing pending,
and closed under the rules. -/
structure Concluded (S : Setup D W L) (graph : FlowGraph) (s : State D W L) :
    Prop where
  wellFormed : (S.view graph).WellFormed
  accounted : Accounted S graph s
  worklist_eq : s.worklist = []
  saturated : Saturated S (fun _ _ => True) s
  exists_finished : ∃ met, Finished S (fun _ _ => True) graph met s

/-- Every complete run leaves such tables. Two results about the loop
meet here: the books are in order, and the rules are met. -/
theorem concluded_of_tabulate (hpure : S.problem.IsPure)
    (hwf : (S.view graph).WellFormed)
    (honce : ∀ c, ((S.view graph).callees c).Nodup) {s₁ : State D W L}
    {fuel : Nat} (hbegin : begin S (State.start S graph) = .ok () s₁)
    (hloop : tabulate S fuel s₁ = .ok .complete s) : Concluded S graph s := by
  obtain ⟨haccounted, hnil⟩ := accounted_of_tabulate hpure honce hbegin hloop
  obtain ⟨hsaturated, hfinished⟩ :=
    saturated_of_isPure isGrowthOrder_trivial hpure hwf.start_owned hbegin hloop
  exact ⟨hwf, haccounted, hnil, hsaturated, hfinished⟩

end Loop

namespace Concluded

variable (hs : Concluded S graph s)

include hs

/-- Nothing is pending, so every path edge on record has its flows
noted. -/
theorem notedAt {e : PathEdge D} (he : Recorded s e) : NotedAt S s e := by
  rcases hs.accounted.attended e he with hmem | hnoted
  · rw [hs.worklist_eq] at hmem
    exact absurd hmem List.not_mem_nil
  · exact hnoted

/-- The flows into callees are on record for the path edges that end at
calls, and for no others. -/
theorem get?_callFlows {c : Node} {g : Proc} {d : D} {ts : List (D × W)} :
    s.callFlows.get? c (g, d) = some ts ↔
      (∃ source, Recorded s ⟨source, c, d⟩) ∧
      ∃ start, (S.view s.graph).Enters c g start ∧
      ts = S.callTargets c g start d := by
  constructor
  · intro ht
    obtain ⟨start, henter, hts, _⟩ := hs.accounted.kept.callFlow ht
    exact ⟨hs.accounted.grounded.callFlow ht, start, henter, hts⟩
  · intro h
    obtain ⟨⟨source, f, hf⟩, start, henter, rfl⟩ := h
    exact (hs.saturated.followed hf id).callFlow henter.isCall henter.callee
      henter.start

/-- Every flow that there is reason to evaluate is noted. Returns are
noted because callers and summaries balance, all others because path
edges were followed. -/
theorem noted {edge : FlowEdge} {d : D} {ts : List (D × W)}
    (hx : Crosses S s edge d ts) : Noted S s edge d ts := by
  cases hx with
  | normal he hcall hexit hm => exact (hs.notedAt he).normal hcall hexit _ hm
  | pass he hcall hr => exact (hs.notedAt he).pass hcall _ hr
  | @ret i k r hi hk hstart hentry hr =>
    refine hs.accounted.balanced i k r hi hk
      ⟨hstart, fun {q} hq => ?_⟩ hentry hr
    -- procedures own their starts, so they do not share them
    have hwf := hs.wellFormed
    rw [hs.accounted.graph_eq] at hstart hq
    exact Option.some.inj
      ((hwf.start_owned hq).symm.trans (hwf.start_owned hstart))
  | @call e g start he henter =>
    have hflow := hs.get?_callFlows.mpr ⟨⟨e.source, he⟩, start, henter, rfl⟩
    obtain ⟨start', henter', _, hnoted⟩ := hs.accounted.kept.callFlow hflow
    obtain rfl := Option.some.inj (henter.start.symm.trans henter'.start)
    exact hnoted

/-- The facts numbered are those with a reason. Each of the next lemmas
says the same of another table. -/
theorem mem_facts {d : D} : d ∈ s.facts ↔ FactBacked S s d := by
  refine ⟨hs.accounted.grounded.fact, fun h => ?_⟩
  rcases h with rfl | ⟨seed, hseed, rfl⟩ | ⟨edge, d', ts, hx, hmem⟩
  · exact hs.accounted.kept.zero
  · exact hs.accounted.grounded.seed seed hseed
  · obtain ⟨t, ht, rfl⟩ := List.mem_map.mp hmem
    exact (hs.noted hx).facts t ht

theorem mem_exploded {x : ExplodedEdge D} :
    x ∈ s.exploded ↔ EdgeBacked S s x := by
  refine ⟨hs.accounted.grounded.exploded, fun h => ?_⟩
  obtain ⟨hon, edge, d, ts, hx, t, ht, rfl⟩ := h
  exact (hs.noted hx).edges hon t ht

theorem mem_known {c : Node} {g : Proc} :
    (c, g) ∈ s.known ↔ CalleeBacked S s c g := by
  refine ⟨hs.accounted.grounded.known, fun h => ?_⟩
  obtain ⟨⟨source, target, f, hf⟩, hcall, hg⟩ := h
  exact (hs.saturated.followed hf id).known hcall hg

/-- The callers on record are those that enter with a fact on record. -/
theorem mem_incoming {i : Incoming D} :
    i ∈ s.incoming ↔ (∃ source, Recorded s ⟨source, i.site, i.callFact⟩) ∧
      ∃ g, (S.view s.graph).Enters i.site g i.start ∧
        i.entry ∈ (S.callTargets i.site g i.start i.callFact).map Prod.fst := by
  obtain ⟨met, hfinished⟩ := hs.exists_finished
  constructor
  · intro hi
    obtain ⟨g, ts, henter, hflow, hentry, source, w, hw⟩ :=
      hfinished.sound.incoming hi
    obtain ⟨_, start, henter', rfl⟩ := hs.get?_callFlows.mp hflow
    obtain rfl := Option.some.inj (henter.start.symm.trans henter'.start)
    exact ⟨⟨source, w, hw⟩, g, henter, hentry⟩
  · intro h
    obtain ⟨⟨source, f, hf⟩, g, henter, hentry⟩ := h
    obtain ⟨t, ht, heq⟩ := List.mem_map.mp hentry
    have hfollowed := hs.saturated.followed hf id
    have hin := (hfollowed.entry henter.isCall henter.callee
        henter.start t ht).2
    rw [heq] at hin
    exact hin

/-- The summaries are the jump functions at exits. -/
theorem get?_summaries {k : SummaryEdge D} {h : W} :
    s.summaries.get? k = some h ↔ (S.view graph).Leaves k.exit k.proc ∧
      s.jump? ⟨k.entry, k.exit, k.exitFact⟩ = some h := by
  obtain ⟨met, hfinished⟩ := hs.exists_finished
  exact hfinished.summary_iff hs.saturated hs.accounted.graph_eq

end Concluded

end Solver

end Tabulation
