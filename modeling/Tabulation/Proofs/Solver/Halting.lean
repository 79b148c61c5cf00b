/-
The loop comes to an end.

A path edge is queued only if it is new or its jump function was
raised. Where the facts and nodes that a run can meet are finitely many
(`Contained`), and no jump function can be raised forever (`IsRank`),
there is room for finitely many such changes.

# The measure

The first component is how far the graph can still grow: call sites are
made pending again only if it has grown since the last time. The second
is the number of pending path edges together with the room for changes
(`Grid.room`). To follow a path edge takes one from the first summand,
and every path edge that is queued meanwhile takes at least one from
the second.
-/
import Mathlib.Algebra.GroupWithZero.Nat
import Mathlib.Algebra.Order.BigOperators.Group.List
import Mathlib.Algebra.Order.Group.Nat
import Tabulation.Flow.WellFormed
import Tabulation.Proofs.Solver.Turns

namespace Tabulation

-- ====================================================== room for changes

namespace Grid

variable {ρ κ υ : Type} [DecidableEq ρ] [DecidableEq κ]

/-- How often the cells at the given places can be written to, if each
write makes a rank smaller that is at most `bound`. A cell that is
empty can be written to once more than one with the largest rank. -/
def room (g : Grid ρ κ υ) (rank : υ → Nat) (bound : Nat)
    (places : List (ρ × κ)) : Nat :=
  (places.map fun x => (g.get? x.1 x.2).elim (bound + 1) rank).sum

/-- A write that makes a rank smaller takes room. A first write counts
as well, as an empty place has more room than any value leaves. -/
theorem room_insert_lt {g : Grid ρ κ υ} {rank : υ → Nat} {bound : Nat}
    {places : List (ρ × κ)} {r : ρ} {k : κ} {v : υ} (hmem : (r, k) ∈ places)
    (hless : rank v < (g.get? r k).elim (bound + 1) rank) :
    (g.insert r k v).room rank bound places < g.room rank bound places := by
  refine List.sum_lt_sum _ _ (fun x _ => ?_) ⟨(r, k), hmem, ?_⟩
  · rw [get?_insert]
    split
    next heq =>
      obtain ⟨rfl, rfl⟩ := heq
      exact Nat.le_of_lt hless
    next => exact Nat.le_refl _
  · rw [get?_insert_self]
    exact hless

end Grid

variable {D W L : Type} [DecidableEq D]

/-- A rank of edge functions that an accepted join makes smaller if it
is new. Joins that are rejected end the run, so they need not be spoken
of. -/
structure Setup.IsRank [DecidableEq L] (S : Setup D W L) (rank : W → Nat)
    (bound : Nat) : Prop where
  bounded : ∀ w, rank w ≤ bound
  descends : ∀ {f g},
    (S.config.checkMonotonicity = true →
      S.isUpperBound (S.problem.functions.join f g) f g = true) →
    S.problem.functions.join f g ≠ f →
      rank (S.problem.functions.join f g) < rank f

/-- Flows lead from the given facts to the given facts. So a run that
starts inside a finite list of facts never leaves it. -/
structure Setup.Confines (S : Setup D W L) (facts : List D) : Prop where
  normal : ∀ {n m d t}, d ∈ facts → t ∈ S.normalTargets n m d → t.1 ∈ facts
  call : ∀ {c g st d t}, d ∈ facts → t ∈ S.callTargets c g st d → t.1 ∈ facts
  ret : ∀ {c g x r d e t}, d ∈ facts → e ∈ facts →
    t ∈ S.returnTargets c g x r d e → t.1 ∈ facts
  pass : ∀ {c r d t}, d ∈ facts → t ∈ S.passTargets c r d → t.1 ∈ facts

namespace Solver

section Vocabulary

variable (I₀ : Icfg) (facts : List D)

/-- Some procedure owns the node. -/
def Owned (n : Node) : Prop := ∃ p, I₀.procOf? n = some p

/-- The tables are about owned nodes and the given facts. It is what
makes the places of path edges finitely many. -/
structure Contained (s : State D W L) : Prop where
  row : ∀ {n}, n ∈ s.jumps.rows.keys → Owned I₀ n
  source : ∀ {e}, Recorded s e → e.source ∈ facts
  target : ∀ {e}, Recorded s e → e.target ∈ facts
  site : ∀ {i}, i ∈ s.incoming → Owned I₀ i.site
  callFact : ∀ {i}, i ∈ s.incoming → i.callFact ∈ facts
  exit : ∀ {k}, Summarized s k → Owned I₀ k.exit
  exitFact : ∀ {k}, Summarized s k → k.exitFact ∈ facts

end Vocabulary

variable {S : Setup D W L} {I₀ : Icfg} {facts : List D} {s s' : State D W L}

-- =============================================================== the places

theorem Contained.owned (hs : Contained I₀ facts s) {e : PathEdge D}
    (he : Recorded s e) : Owned I₀ e.node := by
  obtain ⟨w, hw⟩ := he
  exact hs.row (State.mem_rows_of_jump? hw)

/-- A flow that the tables give reason to evaluate stays among the
nodes and facts. -/
theorem Contained.crosses (hwf : I₀.WellFormed) (hfacts : S.Confines facts)
    (horigin : I₀.GrowsTo (S.view s.graph)) (hs : Contained I₀ facts s)
    {edge : FlowEdge} {d : D} {ts : List (D × W)} (hx : Crosses S s edge d ts) :
    Owned I₀ edge.target ∧ ∀ t ∈ ts, t.1 ∈ facts := by
  cases hx with
  | normal he _ _ hm =>
    obtain ⟨p, hp⟩ := hs.owned he
    rw [horigin.successors] at hm
    exact ⟨⟨p, hwf.successor_owned hp hm⟩,
        fun t ht => hfacts.normal (hs.target he) ht⟩
  | @call e g start he henter =>
    have hstart := henter.start
    rw [horigin.start?] at hstart
    exact ⟨⟨g, hwf.start_owned hstart⟩,
        fun t ht => hfacts.call (hs.target he) ht⟩
  | ret hi hk _ _ hr =>
    obtain ⟨p, hp⟩ := hs.site hi
    rw [horigin.returnSite?] at hr
    exact ⟨⟨p, hwf.returnSite_owned hp hr⟩,
      fun t ht => hfacts.ret (hs.exitFact hk) (hs.callFact hi) ht⟩
  | pass he _ hr =>
    obtain ⟨p, hp⟩ := hs.owned he
    rw [horigin.returnSite?] at hr
    exact ⟨⟨p, hwf.returnSite_owned hp hr⟩,
        fun t ht => hfacts.pass (hs.target he) ht⟩

/-- So does a path edge that they give reason to store. -/
theorem Contained.arises (hwf : I₀.WellFormed) (hfacts : S.Confines facts)
    (horigin : I₀.GrowsTo (S.view s.graph)) (hs : Contained I₀ facts s)
    {e : PathEdge D} (he : Arises S s e) :
    Owned I₀ e.node ∧ e.source ∈ facts ∧ e.target ∈ facts := by
  cases he with
  | within hx _ ht hbefore =>
    obtain ⟨howned, hts⟩ := hs.crosses hwf hfacts horigin hx
    have hsource := hs.source hbefore
    exact ⟨howned, hsource, hts _ ht⟩
  | entry hx _ ht =>
    obtain ⟨howned, hts⟩ := hs.crosses hwf hfacts horigin hx
    exact ⟨howned, hts _ ht, hts _ ht⟩

/-- And it may be stored. -/
theorem Contained.queued (hs : Contained I₀ facts s) {e : PathEdge D}
    (hnode : Owned I₀ e.node) (hsource : e.source ∈ facts)
    (htarget : e.target ∈ facts) (w : W) :
    Contained I₀ facts (queued s e w) where
  row := by
    intro n hn
    rcases Grid.mem_keys_rows_insert.mp hn with hn | rfl
    · exact hs.row hn
    · exact hnode
  source := by
    intro e' he'
    rcases recorded_queued_iff.mp he' with he' | rfl
    · exact hs.source he'
    · exact hsource
  target := by
    intro e' he'
    rcases recorded_queued_iff.mp he' with he' | rfl
    · exact hs.target he'
    · exact htarget
  site := hs.site
  callFact := hs.callFact
  exit := hs.exit
  exitFact := hs.exitFact

theorem Contained.relisted (hs : Contained I₀ facts s)
    (pending : List (PathEdge D)) (seen iterations rescans : Nat) :
    Contained I₀ facts (relisted s pending seen iterations rescans) :=
  ⟨hs.row, hs.source, hs.target, hs.site, hs.callFact, hs.exit, hs.exitFact⟩

/-- Seeds stand at starts, which their procedures own. -/
theorem Sown.owned {graph : FlowGraph} {seeds : List (Seed D L)}
    (hwf : (S.view graph).WellFormed) (hs : Sown S graph seeds s)
    (seed : Seed D L) (hseed : seed ∈ seeds) :
    Owned (S.view graph) seed.node := by
  obtain ⟨p, hp, _⟩ :=
    Option.map_eq_some_iff.mp (hs.atStart hwf.start_owned seed hseed)
  exact ⟨p, hp⟩

/-- Seeds at owned nodes, with facts among the given ones. Nothing else
is on record yet. -/
theorem Sown.contained {graph : FlowGraph} {seeds : List (Seed D L)}
    (hwf : (S.view graph).WellFormed) (hs : Sown S graph seeds s)
    (hseeds : ∀ seed ∈ seeds, seed.fact ∈ facts) :
    Contained (S.view graph) facts s where
  row := by
    intro n hn
    obtain ⟨seed, hseed, rfl⟩ := hs.row hn
    exact hs.owned hwf seed hseed
  source := by
    intro e he
    obtain ⟨seed, hseed, rfl⟩ := hs.recorded.mp he
    exact hseeds seed hseed
  target := by
    intro e he
    obtain ⟨seed, hseed, rfl⟩ := hs.recorded.mp he
    exact hseeds seed hseed
  site := by
    intro i hi
    rw [hs.incoming_eq] at hi
    exact absurd hi List.not_mem_nil
  callFact := by
    intro i hi
    rw [hs.incoming_eq] at hi
    exact absurd hi List.not_mem_nil
  exit := by
    intro k hk
    unfold Summarized at hk
    rw [hs.summaries_eq] at hk
    obtain ⟨h, hh⟩ := hk
    cases hh
  exitFact := by
    intro k hk
    unfold Summarized at hk
    rw [hs.summaries_eq] at hk
    obtain ⟨h, hh⟩ := hk
    cases hh

variable [DecidableEq L]

/-- Moves keep to the nodes and facts, since each is made for a reason. -/
theorem Contained.move (hwf : I₀.WellFormed) (hfacts : S.Confines facts)
    (horigin : I₀.GrowsTo (S.view s.graph)) (hs : Contained I₀ facts s)
    (h : Move S s s') : Contained I₀ facts s' := by
  cases h with
  | serve edge d =>
    rw [served_eq]
    exact ⟨hs.row, hs.source, hs.target, hs.site, hs.callFact, hs.exit,
        hs.exitFact⟩
  | @store e w _ harises =>
    obtain ⟨hnode, hsource, htarget⟩ := hs.arises hwf hfacts horigin harises
    exact hs.queued hnode hsource htarget w
  | @raise e f g hf _ _ =>
    have he : Recorded s e := ⟨f, hf⟩
    have h := hs.queued (hs.owned he) (hs.source he) (hs.target he)
      (S.problem.functions.join f g)
    exact ⟨h.row, h.source, h.target, h.site, h.callFact, h.exit, h.exitFact⟩
  | _ =>
    exact ⟨hs.row, hs.source, hs.target, hs.site, hs.callFact, hs.exit,
        hs.exitFact⟩

/-- So do strides: callers and summaries come from path edges that did. -/
theorem Contained.stride (hwf : I₀.WellFormed) (hfacts : S.Confines facts)
    (horigin : I₀.GrowsTo (S.view s.graph)) (hs : Contained I₀ facts s)
    (h : Stride S s s') : Contained I₀ facts s' := by
  cases h with
  | move hmove => exact hs.move hwf hfacts horigin hmove
  | @enter i g ts _ hx _ =>
    obtain ⟨⟨source, he⟩, _⟩ := hx.exists_caller
    refine ⟨hs.row, hs.source, hs.target, fun {j} hj => ?_, fun {j} hj => ?_,
        hs.exit, hs.exitFact⟩
    · rcases List.mem_append.mp hj with hj | hj
      · exact hs.site hj
      · rw [List.mem_singleton.mp hj]
        exact hs.owned he
    · rcases List.mem_append.mp hj with hj | hj
      · exact hs.callFact hj
      · rw [List.mem_singleton.mp hj]
        exact hs.target he
  | @summarize x h g hh hleave =>
    have hx : Recorded s x := ⟨h, hh⟩
    -- a summary is new only under its own key
    have hold : ∀ k, Summarized { s with
        summaries := s.summaries.insert ⟨g, x.source, x.node, x.target⟩ h } k →
        Summarized s k ∨ k = ⟨g, x.source, x.node, x.target⟩ := by
      intro k hk
      obtain ⟨w, hw⟩ := hk
      rw [Table.get?_insert] at hw
      split at hw
      next heq => exact Or.inr heq.symm
      next => exact Or.inl ⟨w, hw⟩
    refine ⟨hs.row, hs.source, hs.target, hs.site, hs.callFact,
        fun {k} hk => ?_, fun {k} hk => ?_⟩
    · rcases hold k hk with hk | rfl
      · exact hs.exit hk
      · exact hs.owned hx
    · rcases hold k hk with hk | rfl
      · exact hs.exitFact hk
      · exact hs.target hx
  | _ =>
    exact ⟨hs.row, hs.source, hs.target, hs.site, hs.callFact, hs.exit,
        hs.exitFact⟩

/-- Containment may be relied on along a run, together with anything
else that strides keep. -/
theorem guards_of_contained {E : Failure D W L → Prop}
    {Also : State D W L → Prop} (hsteady : S.IsSteady) (hwf : I₀.WellFormed)
    (hfacts : S.Confines facts)
    (hstride : ∀ {s s'}, Also s → Stride S s s' → Also s')
    (hrelist : ∀ {s} pending seen iterations rescans, Also s →
      Also (relisted s pending seen iterations rescans))
    (hgap : ∀ gap, E (.rejected (.inconsistent gap)))
    (hfault : ∀ {s fault}, Kept S I₀ s → Contained I₀ facts s →
      Unanswered S s fault → E (.fault fault))
    (hregress : ∀ (e : PathEdge D) f g, S.config.checkMonotonicity = true →
      S.isUpperBound (S.problem.functions.join f g) f g = false →
      E (.rejected (.functionRegressed e.node e.target f g
        (S.problem.functions.join f g)))) :
    Guards S I₀ (fun s => Kept S I₀ s ∧ Contained I₀ facts s ∧ Also s) E where
  steady := hsteady
  kept := fun hs => hs.1
  stride := fun hs h =>
    ⟨hs.1.stride hsteady h, hs.2.1.stride hwf hfacts hs.1.origin h,
      hstride hs.2.2 h⟩
  relist := fun hs hpending seen iterations rescans =>
    ⟨hs.1.relisted hpending seen iterations rescans,
      hs.2.1.relisted _ seen iterations rescans, hrelist _ _ _ _ hs.2.2⟩
  gap := hgap
  fault := fun hs h => hfault hs.1 hs.2.1 h
  regress := fun {_ e f g} _ _ hon hbad => hregress e f g hon hbad

-- ============================================================= the measure

section Measure

variable {rank : W → Nat} {bound : Nat} {places : List (Node × D × D)}
variable {Inv : State D W L → Prop} {E : Failure D W L → Prop}

variable (rank bound places) in
/-- The pending path edges, and the room for changes. Following a path
edge takes one off the list, and queueing one takes room. -/
def load (s : State D W L) : Nat :=
  s.worklist.length + s.jumps.room rank bound places

omit [DecidableEq L] in
/-- What is queued takes room, at least as much as it adds to the
pending ones. -/
private theorem load_queued_le {e : PathEdge D} {w : W}
    (hmem : (e.node, e.source, e.target) ∈ places)
    (hless : rank w < (s.jump? e).elim (bound + 1) rank) :
    load rank bound places (queued s e w) ≤ load rank bound places s := by
  have hroom : (queued s e w).jumps.room rank bound places <
    s.jumps.room rank bound places := Grid.room_insert_lt hmem hless
  have hlength : (queued s e w).worklist.length = s.worklist.length + 1 :=
    List.length_append
  unfold load
  omega

/-- No stride makes the load larger. The two that queue something pay
for it. -/
theorem Stride.load_le (hrank : S.IsRank rank bound)
    (hplaces : ∀ {e}, Recorded s' e → (e.node, e.source, e.target) ∈ places)
    (h : Stride S s s') :
    load rank bound places s' ≤ load rank bound places s := by
  cases h with
  | move hmove =>
    cases hmove with
    | serve edge d =>
      rw [served_eq]
      exact Nat.le_refl _
    | @store e w hnew _ =>
      refine load_queued_le (hplaces (recorded_queued s e w)) ?_
      rw [hnew]
      exact Nat.lt_succ_of_le (hrank.bounded w)
    | @raise e f g hf hok hne =>
      refine load_queued_le (hplaces (recorded_queued _ e _)) ?_
      show _ < (s.jump? e).elim _ _
      rw [hf]
      exact hrank.descends hok hne
    | _ => exact Nat.le_refl _
  | _ => exact Nat.le_refl _

/-- And so along a course, as long as path edges keep to the places. -/
theorem Guards.load_le (hG : Guards S I₀ Inv E) (hrank : S.IsRank rank bound)
    (hplaces : ∀ {s e}, Inv s → Recorded s e →
      (e.node, e.source, e.target) ∈ places) (hs : Inv s) (h : Course S s s') :
    load rank bound places s' ≤ load rank bound places s := by
  induction h with
  | refl => exact Nat.le_refl _
  | tail hcourse hstride ih =>
    have hs' := hG.stride (hG.course hs hcourse) hstride
    exact Nat.le_trans (hstride.load_le hrank (hplaces hs')) ih

variable [DecidableEq W]

/-- Where the graph can grow only so far, and path edges keep to
finitely many places, the loop comes to an end. It stops early only for
a reason. The measure is lexicographic: a rescan may add to the load,
but has seen the graph grow. -/
theorem halts_tabulate (hG : Guards S I₀ Inv E) (hrank : S.IsRank rank bound)
    (hplaces : ∀ {s e}, Inv s → Recorded s e →
      (e.node, e.source, e.target) ∈ places) {last : Nat}
    (hlast : ∀ {s}, Inv s → (S.view s.graph).revision ≤ last) (hs : Inv s)
    (hseen : s.seenRevision ≤ (S.view s.graph).revision) :
    Halts E (tabulate S)
      (fun status s' => Inv s' ∧ ∀ reason, status = .incomplete reason →
        ∃ s₀, Inv s₀ ∧ stopReason? S s₀ = some reason) s := by
  -- revisions that are still to come weigh more than what is pending:
  -- a rescan may queue any number of path edges, but uses up a
  -- revision
  refine halts_loop (J := fun s => Inv s ∧
    s.seenRevision ≤ (S.view s.graph).revision)
    (fun s => toLex (last - s.seenRevision, load rank bound places s)) hG
    (fun h => h.1) (fun {s s'} hs h => ?_)
    (fun {s s' status} hs h => ?_) ⟨hs, hseen⟩
  · rw [Prod.Lex.toLex_lt_toLex]
    cases h with
    | @followed e rest _ hperm hprocessed =>
      have hrec : ∀ {e'}, e' ∈ rest → Recorded s e' := fun he =>
        (hG.kept hs.1).pending (hperm.mem_iff.mpr (List.mem_cons_of_mem _ he))
      have hs₁ := hG.relist hs.1 hrec s.seenRevision
        (s.stats.worklistIterations + 1) s.stats.calleeRescans
      have hgrows := hprocessed.course.grows hG.steady
      have hseen' : s'.seenRevision = s.seenRevision := hgrows.seenRevision
      have hload := hG.load_le hrank hplaces hs₁ hprocessed.course
      have hlength := hperm.length_eq
      refine ⟨⟨hG.course hs₁ hprocessed.course, ?_⟩,
          Or.inr ⟨by rw [hseen'], ?_⟩⟩
      · rw [hseen']
        exact Nat.le_trans hs.2 hgrows.view.revision
      · refine Nat.lt_of_le_of_lt hload ?_
        unfold load relisted
        rw [List.length_cons] at hlength
        dsimp only
        omega
    | rescanned hnil hgrown hrec =>
      have hnow := hlast hs.1
      have hbefore := hs.2
      refine ⟨⟨hG.relist hs.1 hrec _ _ _, Nat.le_refl _⟩, Or.inl ?_⟩
      show last - (S.view s.graph).revision < last - s.seenRevision
      omega
  · cases h with
    | @stopped reason hstop =>
      refine ⟨hG.relist hs.1 (fun he => absurd he List.not_mem_nil) _ _ _,
          fun r hr => ?_⟩
      obtain rfl := Status.incomplete.inj hr
      exact ⟨s, hs.1, hstop⟩
    | ended hnil =>
      exact ⟨hG.relist hs.1 (fun he => absurd he List.not_mem_nil) _ _ _,
          fun r hr => nomatch hr⟩

end Measure

end Solver

end Tabulation
