/-
Recorded exploded edges explain what is reached.

With edges recorded, what a run reports as reached is what its seeds
lead to along the exploded edges that it reports (`Linked`), neither
more nor less. That holds of runs that stop early too, and of runs
during which call targets come up.

That nothing is reached without an edge holds at every moment of a run:
a path edge is stored for a flow that was noted, out of something
reached (`Explained`). That no edge leads to anything else holds
between turns only, and is what `Solver/Landing` is about.
-/
import Tabulation.Proofs.IterationLimit
import Tabulation.Proofs.LateCallees
import Tabulation.Proofs.Solver.Landing
import Tabulation.Proofs.Solver.Turns

namespace Tabulation.Solver

variable {D W L : Type} [DecidableEq D]

-- ============================================================= vocabulary

/-- What seeds lead to along exploded edges. The seeds and the edges
are those that are reported, so this can be seen from the results
alone. -/
inductive Linked (seeds : List (Seed D L)) (edges : List (ExplodedEdge D)) :
    Node → D → Prop
  | seed {seed : Seed D L} : seed ∈ seeds →
      Linked seeds edges seed.node seed.fact
  | step {x : ExplodedEdge D} : Linked seeds edges x.source x.sourceFact →
      x ∈ edges → Linked seeds edges x.target x.targetFact

omit [DecidableEq D] in
theorem Linked.mono {seeds : List (Seed D L)}
    {edges edges' : List (ExplodedEdge D)} (hsub : ∀ x ∈ edges, x ∈ edges')
    {n : Node} {d : D} (h : Linked seeds edges n d) :
    Linked seeds edges' n d := by
  induction h with
  | seed hseed => exact .seed hseed
  | @step x _ hx ih => exact .step ih (hsub x hx)

/-- All that is reached is linked to the seeds, and all that exploded
edges may leave from is reached. -/
structure Explained (seeds : List (Seed D L)) (s : State D W L) : Prop where
  seed : ∀ seed ∈ seeds, Reached s seed.node seed.fact
  linked : ∀ {e}, Recorded s e → Linked seeds s.exploded e.node e.target
  source : ∀ {x}, x ∈ s.exploded → Reached s x.source x.sourceFact
  caller : ∀ {i}, i ∈ s.incoming → Reached s i.site i.callFact
  summary : ∀ {k}, Summarized s k → Reached s k.exit k.exitFact

/-- Exploded edges lead to what is reached. In the middle of a turn
this may fail. -/
def Landed (s : State D W L) : Prop :=
  ∀ x ∈ s.exploded, Reached s x.target x.targetFact

variable {S : Setup D W L} {graph : FlowGraph} {s s' : State D W L}
variable {seeds : List (Seed D L)}

theorem Reached.grow (h : Grows S s s') {n : Node} {d : D}
    (hn : Reached s n d) : Reached s' n d := by
  obtain ⟨source, he⟩ := hn
  exact ⟨source, h.recorded he⟩

theorem Landed.lands (hs : Landed s) (h : Lands s s') : Landed s' := by
  intro x hx
  rcases h.exploded hx with hx | hx
  · exact (hs x hx).lands h
  · exact hx

-- ========================================================= at every moment

/-- A flow that there is reason to evaluate leaves from what is
reached. -/
theorem Crosses.reached (hs : Explained seeds s) {edge : FlowEdge} {d : D}
    {ts : List (D × W)} (h : Crosses S s edge d ts) :
    Reached s edge.source d := by
  cases h with
  | @normal e m he _ _ _ => exact ⟨e.source, he⟩
  | @call e g start he _ => exact ⟨e.source, he⟩
  | ret _ hk _ _ _ => exact hs.summary hk
  | @pass e r he _ _ => exact ⟨e.source, he⟩

/-- What a flow leads to is linked once the flow is noted. -/
theorem Noted.linked (hon : S.config.recordEdges = true)
    (hs : Explained seeds s) {edge : FlowEdge} {d : D} {ts : List (D × W)}
    {t : D × W} (hx : Crosses S s edge d ts) (hnoted : Noted S s edge d ts)
    (ht : t ∈ ts) : Linked seeds s.exploded edge.target t.1 := by
  obtain ⟨source, he⟩ := hx.reached hs
  exact .step (x := .along edge d t.1) (hs.linked he) (hnoted.edges hon t ht)

/-- A path edge that there is reason to store is linked: the flow it
comes from is noted, so its edge is recorded. -/
theorem Arises.linked (hon : S.config.recordEdges = true)
    (hs : Explained seeds s) {e : PathEdge D} (h : Arises S s e) :
    Linked seeds s.exploded e.node e.target := by
  cases h with
  | within hx hnoted ht _ _ => exact hnoted.linked hon hs hx ht
  | entry hx hnoted ht _ _ => exact hnoted.linked hon hs hx ht

/-- What was explained stays so, and what is new has to be. -/
theorem Explained.grow (hs : Explained seeds s) (h : Grows S s s')
    (hrecorded : ∀ {e}, Recorded s' e →
      Recorded s e ∨ Linked seeds s.exploded e.node e.target)
    (hsource : ∀ {x}, x ∈ s'.exploded → x ∈ s.exploded ∨
      Reached s x.source x.sourceFact)
    (hcaller : ∀ {i}, i ∈ s'.incoming → i ∈ s.incoming ∨
      Reached s i.site i.callFact)
    (hsummary : ∀ {k}, Summarized s' k → Summarized s k ∨
      Reached s k.exit k.exitFact) : Explained seeds s' where
  seed := fun seed hseed => (hs.seed seed hseed).grow h
  linked := fun he => ((hrecorded he).elim hs.linked id).mono
    fun _ => h.exploded
  source := fun hx => ((hsource hx).elim hs.source id).grow h
  caller := fun hi => ((hcaller hi).elim hs.caller id).grow h
  summary := fun hk => ((hsummary hk).elim hs.summary id).grow h

/-- The seeds explain themselves. -/
theorem Sown.explained (hs : Sown S graph seeds s) : Explained seeds s where
  seed := fun seed hseed => ⟨seed.fact, hs.recorded.mpr ⟨seed, hseed, rfl⟩⟩
  linked := by
    intro e he
    obtain ⟨seed, hseed, rfl⟩ := hs.recorded.mp he
    exact .seed hseed
  source := by
    rw [hs.exploded_eq]
    exact fun hx => absurd hx List.not_mem_nil
  caller := by
    rw [hs.incoming_eq]
    exact fun hi => absurd hi List.not_mem_nil
  summary := by
    intro k hk
    unfold Summarized at hk
    rw [hs.summaries_eq] at hk
    obtain ⟨h, hh⟩ := hk
    cases hh

/-- What is reached is what seeds are linked to. -/
theorem Explained.reached_iff (hs : Explained seeds s) (hlanded : Landed s)
    {n : Node} {d : D} : Reached s n d ↔ Linked seeds s.exploded n d := by
  constructor
  · intro h
    obtain ⟨source, he⟩ := h
    exact hs.linked he
  · intro h
    cases h with
    | seed hseed => exact hs.seed _ hseed
    | step _ hx => exact hlanded _ hx

variable [DecidableEq L]

/-- A move stores what arises, and records edges of flows that leave
from something reached. -/
theorem Explained.move (hsteady : S.IsSteady)
    (hon : S.config.recordEdges = true) (hs : Explained seeds s)
    (h : Move S s s') : Explained seeds s' := by
  have hgrows := h.grows hsteady
  cases h with
  | note links reuses => exact hs.grow hgrows Or.inl Or.inl Or.inl Or.inl
  | serve edge d =>
    rw [served_eq] at hgrows ⊢
    exact hs.grow hgrows Or.inl Or.inl Or.inl Or.inl
  | @cross edge d ts facts hx _ =>
    refine hs.grow hgrows Or.inl (fun {x} hmem => ?_) Or.inl Or.inl
    unfold logged at hmem
    dsimp only at hmem
    rw [if_pos hon] at hmem
    rcases List.mem_append.mp hmem with hnew | hold
    · obtain ⟨t, _, rfl⟩ := List.mem_map.mp (List.mem_reverse.mp hnew)
      exact Or.inr (hx.reached hs)
    · exact Or.inl hold
  | @store e w _ harises =>
    refine hs.grow hgrows (fun {e'} he => ?_) Or.inl Or.inl Or.inl
    rcases recorded_queued_iff.mp he with hold | rfl
    · exact Or.inl hold
    · exact Or.inr (harises.linked hon hs)
  | @raise e f g hf _ _ =>
    refine hs.grow hgrows (fun {e'} he => Or.inl ?_) Or.inl Or.inl Or.inl
    rcases recorded_queued_iff.mp he with hold | rfl
    · exact hold
    · exact ⟨f, hf⟩

/-- Callers and summaries are put on record for path edges that are
there. -/
theorem Explained.stride (hsteady : S.IsSteady)
    (hon : S.config.recordEdges = true) (hs : Explained seeds s)
    (h : Stride S s s') : Explained seeds s' := by
  have hgrows := h.grows hsteady
  cases h with
  | move hmove => exact hs.move hsteady hon hmove
  | enter _ hx _ =>
    refine hs.grow hgrows Or.inl Or.inl (fun {j} hj => ?_) Or.inl
    rcases List.mem_append.mp hj with hold | hnew
    · exact Or.inl hold
    · rw [List.mem_singleton.mp hnew]
      exact Or.inr hx.exists_caller.1
  | @summarize x h g hh _ =>
    refine hs.grow hgrows Or.inl Or.inl Or.inl fun {k} hk => ?_
    unfold Summarized at hk
    dsimp only at hk
    rw [Table.get?_insert] at hk
    split at hk
    next heq =>
      rw [← heq]
      exact Or.inr ⟨x.source, h, hh⟩
    next => exact Or.inl hk
  | _ => exact hs.grow hgrows Or.inl Or.inl Or.inl Or.inl

-- =========================================================== between turns

theorem guards_of_explained (I₀ : Icfg) (seeds : List (Seed D L))
    (hsteady : S.IsSteady) (hon : S.config.recordEdges = true) :
    Guards S I₀ (fun s => Kept S I₀ s ∧ Explained seeds s) fun _ => True :=
  guards_of_kept hsteady (fun _ hs h => hs.stride hsteady hon h)
    fun hs _ _ _ _ => ⟨hs.seed, hs.linked, hs.source, hs.caller, hs.summary⟩

variable [DecidableEq W]

/-- The loop leaves what is reached explained, and all edges landed,
however it ends. -/
private theorem explained_tabulate {I₀ : Icfg} (hsteady : S.IsSteady)
    (hon : S.config.recordEdges = true) (fuel : Nat) (hkept : Kept S I₀ s)
    (hs : Explained seeds s) (hlanded : Landed s) :
    Ensures (fun _ => True) (tabulate S fuel)
      (fun _ s' => (Kept S I₀ s' ∧ Explained seeds s') ∧ Landed s') s := by
  have hG := guards_of_explained I₀ seeds hsteady hon
  refine ensures_turns (J := fun s => (Kept S I₀ s ∧ Explained seeds s) ∧
    Landed s) trivial (fun {s} hs => ?_) fuel ⟨⟨hkept, hs⟩, hlanded⟩
  have hturn :=
    (turned_turn hG hs.1).and (lands_turn fun _ hi => hs.1.2.caller hi)
  refine (hturn.allow fun _ _ => trivial).mono fun status? s' h => ?_
  have hs' := And.intro (hG.turned hs.1 h.1) (hs.2.lands h.2)
  exact ⟨fun _ => hs', fun _ _ => hs'⟩

-- ================================================================= results

/-- What is reported as reached is what the seeds lead to along the
exploded edges that are reported. So each edge leaves from something
reached and leads to something reached, and whatever is reached is a
seed or has an edge leading to it. -/
theorem reachable_iff_linked (hsteady : S.IsSteady)
    (hon : S.config.recordEdges = true) {fuel : Nat} {r : Results D L}
    (hrun : (solve S fuel graph).1 = .ok r) :
    (∀ n d, r.holdsFact n d = .reachable ↔
      Linked (S.seedsOn (S.view graph)) r.exploded n d) ∧
    (∀ x ∈ r.exploded, r.holdsFact x.source x.sourceFact = .reachable ∧
      r.holdsFact x.target x.targetFact = .reachable) ∧
    ∀ n d, r.holdsFact n d = .reachable →
      (∃ seed ∈ S.seedsOn (S.view graph), seed.node = n ∧ seed.fact = d) ∨
        ∃ x ∈ r.exploded, r.holdsFact x.source x.sourceFact = .reachable ∧
          x.target = n ∧ x.targetFact = d := by
  obtain ⟨s₁, s₂, s₃, status, values, hbegin, hloop, hvalues, hreport, _⟩ :=
    parts_of_solve hrun
  have hsown := (sown_of_begin hbegin).1
  have hlanded₁ : Landed s₁ := by
    unfold Landed
    rw [hsown.exploded_eq]
    exact fun x hx => absurd hx List.not_mem_nil
  obtain ⟨⟨_, hs⟩, hlanded⟩ :=
    (explained_tabulate hsteady hon fuel hsown.kept hsown.explained
      hlanded₁).of_ok hloop
  -- values are computed beside the tables
  obtain ⟨count, hs₃⟩ := eq_of_valuePhase hvalues
  have hreached : ∀ n d, r.holdsFact n d = .reachable ↔ Reached s₂ n d := by
    intro n d
    rw [holdsFact_iff_of_report hreport, hs₃]
    rfl
  obtain ⟨_, _, _, _, hexploded, _⟩ := eq_of_report hreport
  have hmem : ∀ x, x ∈ r.exploded ↔ x ∈ s₂.exploded := by
    intro x
    rw [hexploded, hs₃, List.mem_reverse]
  have hiff : ∀ n d, r.holdsFact n d = .reachable ↔
      Linked (S.seedsOn (S.view graph)) r.exploded n d := by
    intro n d
    rw [hreached, hs.reached_iff hlanded]
    exact ⟨.mono fun x => (hmem x).mpr, .mono fun x => (hmem x).mp⟩
  refine ⟨hiff, fun x hx => ?_, fun n d h => ?_⟩
  · have hx := (hmem x).mp hx
    exact ⟨(hreached _ _).mpr (hs.source hx), (hreached _ _).mpr (hlanded x hx)⟩
  · cases (hiff n d).mp h with
    | @seed seed hseed => exact Or.inl ⟨seed, hseed, rfl, rfl⟩
    | @step x hlinked hx =>
      exact Or.inr ⟨x, hx, (hiff _ _).mpr hlinked, rfl, rfl⟩

/-- `lateTarget` with edges recorded, stopped after some iterations. -/
def recordedLateTarget : Setup LocalFact BinaryEdge Binary :=
  { lateTargetSetup with
    config := { recordEdges := true, maxIterations := some 6 } }

/-- The target that came up is linked through its call. Its exit would
have been next. -/
theorem reachable_iff_linked_lateTarget :
    ∃ r, (solve recordedLateTarget 100 lateTarget.build.graph).1 = .ok r ∧
      r.status = .incomplete .iterationLimit ∧
      r.holdsFact ⟨4⟩ (.var "p") = .reachable ∧
      r.holdsFact ⟨6⟩ (.var "p") = .unknown ∧
      Linked (recordedLateTarget.seedsOn lateTarget.build.graph.icfg)
        r.exploded ⟨4⟩ (.var "p") ∧
      ¬Linked (recordedLateTarget.seedsOn lateTarget.build.graph.icfg)
        r.exploded ⟨6⟩ (.var "p") := by
  have heval :
      (solve recordedLateTarget 100 lateTarget.build.graph).1.toOption.map
      (fun r => (r.status, r.holdsFact ⟨4⟩ (.var "p"),
      r.holdsFact ⟨6⟩ (.var "p"))) =
      some (.incomplete .iterationLimit, .reachable, .unknown) := by
    decide +kernel
  obtain ⟨r, hrun, hr⟩ := exists_ok_of_map heval
  simp only [Prod.mk.injEq] at hr
  obtain ⟨hstatus, hentry, hexit⟩ := hr
  have hsteady : recordedLateTarget.IsSteady := Setup.isSteady_of_view_eq rfl
  have hlinked := (reachable_iff_linked hsteady rfl hrun).1
  refine ⟨r, hrun, hstatus, hentry, hexit, (hlinked _ _).mp hentry, fun h => ?_⟩
  cases hexit.symm.trans ((hlinked _ _).mpr h)

end Tabulation.Solver
