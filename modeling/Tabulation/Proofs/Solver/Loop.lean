/-
The loop over pending path edges, and its end.

One turn keeps a run in progress: it takes a pending path edge and
follows it, and the lemma on its class says that this mends the rules;
or it queues path edges again, which asks less. So the invariant holds
along every run, and a run that ends by itself ends with nothing
pending.

# The trace

`visits` is the trace of the loop: the path edges it followed, in
order, each with the callees that its call site had at that moment. A
path edge has met those callees and no others. The lemma on the loop
(`ensures_tabulate`) says so for all problems; for a problem that asks
for nothing the callees are the same at every visit.
-/
import Tabulation.Proofs.Solver.Closure

namespace Tabulation.Solver

open Supergraph

variable {D W L : Type} [DecidableEq D]
variable {S : Setup D W L} {le : W → W → Prop} {I₀ : Icfg} {s s' : State D W L}
variable {met met' : PathEdge D → Proc → Prop}
variable {pending pending' : PathEdge D → Prop}

-- ===================================================== the list of pending

/-- What is pending may be listed anew, as long as it has jump
functions. -/
theorem Sound.relist (hs : Sound S I₀ s) {l : List (PathEdge D)}
    (hl : ∀ {e}, e ∈ l → ∃ w, s.jump? e = some w) (r : Nat) (t : Statistics) :
    Sound S I₀ { s with worklist := l, seenRevision := r, stats := t } :=
  ⟨hs.origin, hs.jump, hl, hs.summary, hs.callFlow, hs.incoming, hs.known⟩

/-- If more is pending, less is asked. -/
theorem Closed.relist (hs : Closed S le met pending s)
    (hp : ∀ {e}, pending e → pending' e) (l : List (PathEdge D)) (r : Nat)
    (t : Statistics) :
    Closed S le met pending'
      { s with worklist := l, seenRevision := r, stats := t } := by
  constructor
  · intro e f hf he
    have h := hs.followed hf fun h => he (hp h)
    exact ⟨h.normal, h.exit, h.pass, h.known, h.callFlow, h.entry⟩
  · intro e f x h hf hh he hx
    exact hs.returned hf hh (fun h => he (hp h)) fun h => hx (hp h)

/-- If more is pending, fewer callees have to be known. -/
theorem Aware.relist (hs : Aware S met pending s)
    (hp : ∀ {e}, pending e → pending' e) (l : List (PathEdge D))
    (t : Statistics) :
    Aware S met pending' { s with worklist := l, stats := t } := by
  refine ⟨hs.seen, hs.known, fun hw hcall hg => ?_⟩
  rcases hs.noticed hw hcall hg with hk | hpending | hlt
  · exact Or.inl hk
  · exact Or.inr (Or.inl (hp hpending))
  · exact Or.inr (Or.inr hlt)

/-- Once the graph was looked at and nothing is pending, every callee
was met at its site. It may have been another path edge of the site
that met it. -/
theorem Aware.exists_met (hs : Aware S met (fun _ => False) s)
    (hseen : s.seenRevision = (S.view s.graph).revision) {e : PathEdge D}
    {w : W} {g : Proc} (hw : s.jump? e = some w)
    (hcall : (S.view s.graph).isCall e.node = true)
    (hg : g ∈ (S.view s.graph).callees e.node) :
    ∃ e', e'.node = e.node ∧ met e' g := by
  rcases hs.noticed hw hcall hg with hk | hpending | hlt
  · exact hs.known hk
  · exact absurd hpending id
  · omega

/-- Fewer callees met, less asked: the rules for calls are about the
callees that were met. -/
theorem Closed.weaken (hs : Closed S le met pending s)
    (hmet : ∀ {e g}, met' e g → met e g) : Closed S le met' pending s := by
  constructor
  · intro e f hf he
    have h := hs.followed hf he
    exact ⟨h.normal, h.exit, h.pass, fun hc _ hg => h.known hc (hmet hg),
      fun hc _ _ hg => h.callFlow hc (hmet hg),
      fun hc _ _ hg => h.entry hc (hmet hg)⟩
  · intro e f x h hf hh he hx g start r w hc hg
    exact hs.returned hf hh he hx hc (hmet hg)

variable (S) in
/-- The path edge that is taken next, from the end of the list that the
order says. -/
def taken? (s : State D W L) : Option (PathEdge D) :=
  match S.config.order with
  | .fifo => s.worklist.head?
  | .lifo => s.worklist.getLast?

omit [DecidableEq D] in
/-- Taking the next path edge leaves the others. If none is taken, none
was there. -/
theorem ensures_next? {E : Failure D W L → Prop} (s : State D W L) :
    Ensures E (next? S) (fun e? s' =>
      (e? = none ∧ taken? S s = none ∧ s.worklist = [] ∧ s' = s) ∨
        ∃ e rest, e? = some e ∧ taken? S s = some e ∧
          s' = { s with worklist := rest } ∧
          s.worklist.Perm (e :: rest)) s := by
  unfold next? taken?
  refine Ensures.get_bind ?_
  cases S.config.order with
  | fifo =>
    dsimp only
    cases hwl : s.worklist with
    | nil => exact Ensures.pure (Or.inl ⟨rfl, rfl, rfl, rfl⟩)
    | cons e rest =>
      refine Ensures.modify_bind (g := fun _ => { s with worklist := rest }) ?_
      exact Ensures.pure (Or.inr ⟨e, rest, rfl, rfl, rfl, .refl _⟩)
  | lifo =>
    dsimp only
    cases hlast : s.worklist.getLast? with
    | none =>
      exact Ensures.pure
        (Or.inl ⟨rfl, rfl, List.getLast?_eq_none_iff.mp hlast, rfl⟩)
    | some e =>
      refine Ensures.modify_bind
        (g := fun _ => { s with worklist := s.worklist.dropLast }) ?_
      refine Ensures.pure (Or.inr ⟨e, s.worklist.dropLast, rfl, rfl, rfl, ?_⟩)
      obtain ⟨rest, hrest⟩ := List.getLast?_eq_some_iff.mp hlast
      rw [hrest, List.dropLast_concat]
      exact List.perm_append_singleton e rest

variable [DecidableEq L]

/-- Queueing path edges again asks less. If none is queued, none is
pending. -/
theorem ensures_rescan (hle : S.IsGrowthOrder le)
    (hs : InProgress S le I₀ met (· ∈ s.worklist) s) :
    Ensures (Failure.Excused I₀) (rescan S)
      (fun more s' => Later S le s s' ∧
        InProgress S le I₀ met (· ∈ s'.worklist) s' ∧
        s'.seenRevision = (S.view s'.graph).revision ∧
        (s.worklist = [] → more = false → s'.worklist = [])) s := by
  unfold rescan
  refine Ensures.get_bind ?_
  dsimp only
  split
  case isTrue hseen =>
    exact Ensures.pure ⟨.refl hle s, hs, hseen.symm, fun h _ => h⟩
  case isFalse =>
    refine Ensures.modify_bind
      (Ensures.pure ⟨.of_eq hle rfl rfl rfl, ⟨?_, ?_, ?_⟩, rfl, ?_⟩)
    · refine hs.sound.relist (fun {e} he => ?_) _ _
      rcases List.mem_append.mp he with hmem | hmem
      · exact hs.sound.worklist hmem
      · obtain ⟨n, _, hmem⟩ := List.mem_flatMap.mp hmem
        exact (State.mem_edgesAt.mp hmem).2
    · exact hs.closed.relist (fun h => List.mem_append_left _ h) _ _ _
    · refine ⟨Nat.le_refl _, hs.aware.known, fun {e w g} hw hcall hg => ?_⟩
      -- a site with a callee that is not known is listed, and all its
      -- path edges are queued
      by_cases hk : (e.node, g) ∈ s.known
      · exact Or.inl hk
      · refine Or.inr
          (Or.inl (List.mem_append_right _
            (List.mem_flatMap.mpr ⟨e.node, ?_, ?_⟩)))
        · refine List.mem_filter.mpr
            ⟨?_, List.any_eq_true.mpr ⟨g, hg, decide_eq_true hk⟩⟩
          exact Listing.mem_sortOn.mpr
            (List.mem_filter.mpr ⟨State.mem_rows_of_jump? hw, hcall⟩)
        · exact State.mem_edgesAt.mpr ⟨rfl, w, hw⟩
    · intro hnil hmore
      dsimp only
      rw [hnil, List.nil_append]
      simpa using hmore

-- ================================================= following a path edge

variable [DecidableEq W]

/-- A path edge that is followed meets the callees that its site has
now, and is not pending any more. Which lemma applies depends on what
its node is. -/
theorem ensures_process (hle : S.IsGrowthOrder le) (hsteady : S.IsSteady)
    (hown : ∀ {p : Proc} {n : Node}, I₀.start? p = some n →
      I₀.procOf? n = some p) {e : PathEdge D} {f : W}
    (hs : InProgress S le I₀ met (fun e' => e' ∈ s.worklist ∨ e' = e) s)
    (hf : s.jump? e = some f) (hmet : ∀ {e' g}, e' ≠ e → met' e' g → met e' g)
    (hgrow : ∀ {e' g}, met e' g → met' e' g)
    (hnow : ∀ {g}, met' e g ↔ g ∈ (S.view s.graph).callees e.node) :
    Ensures (Failure.Excused I₀) (process S e)
      (fun _ s' => Later S le s s' ∧
        InProgress S le I₀ met' (· ∈ s'.worklist) s') s := by
  unfold process
  refine Ensures.get_bind ?_
  cases hcall : (S.view s.graph).isCall e.node with
  | true =>
    rw [if_pos rfl]
    exact ensures_processCall_closed hle hsteady hs hf hcall hmet hgrow hnow
  | false =>
    rw [if_neg Bool.false_ne_true]
    refine (ensures_askOf e.node _).bind fun isExit s₁ h => ?_
    obtain ⟨rfl, hexit⟩ := h
    cases isExit with
    | true =>
      exact ensures_processExit_closed hle hsteady hown hs hf hcall
        hexit hmet hgrow
    | false =>
      exact ensures_processNormal_closed hle hsteady hs hf hcall
        hexit hmet hgrow

-- ================================================================ one turn

variable (S) in
/-- The callees that the next path edge is about to meet. -/
def MeetsNow (s : State D W L) (e : PathEdge D) (g : Proc) : Prop :=
  taken? S s = some e ∧ g ∈ (S.view s.graph).callees e.node

/-- The path edge that was taken is followed, and meets the callees its
site has now. Those it met before are among them, as sites only get
more. -/
theorem ensures_process_taken (hle : S.IsGrowthOrder le) (hsteady : S.IsSteady)
    (hown : ∀ {p : Proc} {n : Node}, I₀.start? p = some n →
      I₀.procOf? n = some p) (hs : InProgress S le I₀ met (· ∈ s.worklist) s)
    (hmet : ∀ {e g}, met e g → g ∈ (S.view s.graph).callees e.node)
    {e : PathEdge D} {rest : List (PathEdge D)} (htaken : taken? S s = some e)
    (hperm : s.worklist.Perm (e :: rest)) (t : Statistics) :
    Ensures (Failure.Excused I₀) (process S e)
      (fun _ s' => Later S le s s' ∧
        InProgress S le I₀ (fun e g => met e g ∨ MeetsNow S s e g)
          (· ∈ s'.worklist) s')
      { s with worklist := rest, stats := t } := by
  have hmem : ∀ e', e' ∈ s.worklist ↔ e' ∈ rest ∨ e' = e := by
    intro e'
    rw [hperm.mem_iff, List.mem_cons, or_comm]
  obtain ⟨f, hf⟩ := hs.sound.worklist ((hmem e).mpr (Or.inr rfl))
  have hs₁ : InProgress S le I₀ met (fun e' => e' ∈ rest ∨ e' = e)
      { s with worklist := rest, stats := t } :=
    ⟨hs.sound.relist (fun h => hs.sound.worklist ((hmem _).mpr (Or.inl h))) _ _,
      hs.closed.relist (fun h => (hmem _).mp h) _ _ _,
      hs.aware.relist (fun h => (hmem _).mp h) _ _⟩
  have hother : ∀ {e' g}, e' ≠ e → met e' g ∨ MeetsNow S s e' g → met e' g := by
    intro e' g hne h
    rcases h with h | h
    · exact h
    · exact absurd (Option.some.inj (h.1.symm.trans htaken)) hne
  have hnow : ∀ {g}, met e g ∨ MeetsNow S s e g ↔
      g ∈ (S.view s.graph).callees e.node := by
    intro g
    refine ⟨fun h => ?_, fun hg => Or.inr ⟨htaken, hg⟩⟩
    rcases h with h | h
    · exact hmet h
    · exact h.2
  refine (ensures_process (s := { s with worklist := rest, stats := t }) hle
    hsteady hown hs₁ hf @hother Or.inl @hnow).mono fun _ s' h => ?_
  obtain ⟨hlater, hprogress⟩ := h
  exact ⟨⟨hlater.view, hlater.graph, hlater.jump, hlater.seeds⟩, hprogress⟩

/-- One turn keeps a run in progress. If it says that the run is
complete, nothing is pending, and every callee was met at its site. -/
theorem ensures_turn (hle : S.IsGrowthOrder le) (hsteady : S.IsSteady)
    (hown : ∀ {p : Proc} {n : Node}, I₀.start? p = some n →
      I₀.procOf? n = some p) (hs : InProgress S le I₀ met (· ∈ s.worklist) s)
    (hmet : ∀ {e g}, met e g → g ∈ (S.view s.graph).callees e.node) :
    Ensures (Failure.Excused I₀) (turn S)
      (fun status? s' => Later S le s s' ∧ Sound S I₀ s' ∧
        (status? = none →
          InProgress S le I₀ (fun e g => met e g ∨ MeetsNow S s e g)
            (· ∈ s'.worklist) s') ∧
        (status? = some .complete → InProgress S le I₀ met (fun _ => False) s' ∧
          s'.seenRevision = (S.view s'.graph).revision)) s := by
  unfold turn
  refine (ensures_next? s).bind fun e? s₁ h => ?_
  rcases h with ⟨rfl, htaken, hnil, rfl⟩ | ⟨e, rest, rfl, htaken, rfl, hperm⟩
  · -- nothing is pending: the graph is looked at again
    refine (ensures_rescan hle hs).bind fun more s₂ h => ?_
    obtain ⟨hlater, hprogress, hseen, hempty⟩ := h
    cases more with
    | true =>
      refine Ensures.pure ⟨hlater, hprogress.sound,
        fun _ => ⟨hprogress.sound, ?_, hprogress.aware.grow Or.inl⟩, nofun⟩
      refine hprogress.closed.weaken fun h => ?_
      rcases h with h | h
      · exact h
      · rw [MeetsNow, htaken] at h
        cases h.1
    | false =>
      have hnone : ∀ {e}, e ∈ s₂.worklist → False := by
        intro e h
        rw [hempty hnil rfl] at h
        exact absurd h List.not_mem_nil
      exact Ensures.pure ⟨hlater, hprogress.sound, nofun,
        fun _ => ⟨⟨hprogress.sound,
        hprogress.closed.relist hnone s₂.worklist s₂.seenRevision s₂.stats,
        hprogress.aware.relist hnone s₂.worklist s₂.stats⟩, hseen⟩⟩
  · refine Ensures.get_bind ?_
    dsimp only
    split
    · refine Ensures.modify_bind
        (Ensures.pure ⟨.of_eq hle rfl rfl rfl, ?_, nofun, nofun⟩)
      exact hs.sound.relist (fun h => absurd h List.not_mem_nil) _ _
    · refine Ensures.modify_bind ?_
      have hprocess :=
        ensures_process_taken hle hsteady hown hs hmet htaken hperm
          { s.stats with worklistIterations := s.stats.worklistIterations + 1 }
      refine hprocess.bind fun _ s₂ h => ?_
      obtain ⟨hlater, hprogress⟩ := h
      exact Ensures.pure ⟨hlater, hprogress.sound, fun _ => hprogress, nofun⟩

-- ================================================================ the loop

variable (S) in
/-- The path edges that the loop follows, each with the callees it
meets. The trace is a function of its own beside the loop; it takes the
same turns and keeps nothing in the tables. -/
def visits : Nat → State D W L → List (PathEdge D × List Proc)
  | 0, _ => []
  | fuel + 1, s =>
    match turn S s with
    | .ok none s' =>
      match taken? S s with
      | some e => (e, (S.view s.graph).callees e.node) :: visits fuel s'
      | none => visits fuel s'
    | _ => []

variable (S) in
/-- A path edge meets a callee during the loop, at one of its visits. -/
def Meets (fuel : Nat) (s : State D W L) (e : PathEdge D) (g : Proc) : Prop :=
  ∃ callees, (e, callees) ∈ visits S fuel s ∧ g ∈ callees

/-- A callee is met in the next turn, or in the rest of the loop. -/
private theorem meets_succ {fuel : Nat} (hturn : turn S s = .ok none s')
    {e : PathEdge D} {g : Proc} :
    Meets S (fuel + 1) s e g ↔ MeetsNow S s e g ∨ Meets S fuel s' e g := by
  unfold Meets MeetsNow
  rw [visits, hturn]
  dsimp only
  cases htaken : taken? S s with
  | none => simp
  | some e' =>
    simp only [List.mem_cons, Prod.mk.injEq, Option.some.injEq]
    constructor
    · intro h
      obtain ⟨callees, hmem, hg⟩ := h
      rcases hmem with ⟨rfl, rfl⟩ | hmem
      · exact Or.inl ⟨rfl, hg⟩
      · exact Or.inr ⟨callees, hmem, hg⟩
    · intro h
      rcases h with ⟨rfl, hg⟩ | ⟨callees, hmem, hg⟩
      · exact ⟨_, Or.inl ⟨rfl, rfl⟩, hg⟩
      · exact ⟨callees, Or.inr hmem, hg⟩

/-- The loop keeps a run in progress. A complete run has nothing
pending, and has met every callee of the sites it reached. By induction
on fuel, with the callees that were met so far as a parameter. -/
theorem ensures_tabulate (hle : S.IsGrowthOrder le) (hsteady : S.IsSteady)
    (hown : ∀ {p : Proc} {n : Node}, I₀.start? p = some n →
      I₀.procOf? n = some p) (fuel : Nat)
    (hs : InProgress S le I₀ met (· ∈ s.worklist) s)
    (hmet : ∀ {e g}, met e g → g ∈ (S.view s.graph).callees e.node) :
    Ensures (Failure.Excused I₀) (tabulate S fuel)
      (fun status s' => Later S le s s' ∧ Sound S I₀ s' ∧
        (status = .complete →
          InProgress S le I₀ (fun e g => met e g ∨ Meets S fuel s e g)
            (fun _ => False) s' ∧
          s'.seenRevision = (S.view s'.graph).revision)) s := by
  induction fuel generalizing s met with
  | zero => exact Ensures.throw trivial
  | succ fuel ih =>
    unfold tabulate
    refine (ensures_turn hle hsteady hown hs hmet).self.bind
      fun status? s₁ h => ?_
    obtain ⟨hturn, hlater, hsound, hgo, hend⟩ := h
    cases status? with
    | some status =>
      refine Ensures.pure ⟨hlater, hsound, fun hstatus => ?_⟩
      rw [hstatus] at hturn hend
      obtain ⟨hprogress, hseen⟩ := hend rfl
      refine ⟨⟨hsound, hprogress.closed.weaken fun h => ?_,
          hprogress.aware.grow Or.inl⟩, hseen⟩
      rcases h with h | h
      · exact h
      · obtain ⟨callees, hmem, _⟩ := h
        -- a turn that ends the loop visits nothing
        rw [visits, hturn] at hmem
        exact absurd hmem List.not_mem_nil
    | none =>
      have hmet₁ : ∀ {e g}, met e g ∨ MeetsNow S s e g →
          g ∈ (S.view s₁.graph).callees e.node := by
        intro e g h
        rcases h with h | h
        · exact hlater.view.callees (hmet h)
        · exact hlater.view.callees h.2
      refine (ih (hgo rfl) @hmet₁).mono fun status s₂ h => ?_
      obtain ⟨hlater₂, hsound₂, hend₂⟩ := h
      refine ⟨hlater.trans hle hlater₂, hsound₂, fun hstatus => ?_⟩
      obtain ⟨hprogress, hseen⟩ := hend₂ hstatus
      -- met before, met in this turn, or met in the rest of the loop
      have hsplit : ∀ {e g}, met e g ∨ Meets S (fuel + 1) s e g ↔
          (met e g ∨ MeetsNow S s e g) ∨ Meets S fuel s₁ e g := by
        intro e g
        rw [meets_succ hturn, or_assoc]
      exact ⟨⟨hsound₂, hprogress.closed.weaken hsplit.mp,
          hprogress.aware.grow hsplit.mpr⟩, hseen⟩

end Tabulation.Solver
