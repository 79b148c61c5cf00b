/-
What following a path edge ensures.

A path edge is followed by the class of its node. Each class has
its lemma here: the tables it leaves come of those it found, and hold what
the rules of tabulation ask for at this path edge. Along a normal edge
and past a call these are the targets of the flow. At a call they are,
for every callee that is met, the entry into it, and what the summaries
of the callee give at the return site (`EnteredBy`). At an exit they
are what every caller on record gets back (`GivenBack`).

# What is read when

The jump function of the edge followed is read first. Callers of an
exit and summaries of a callee are read before the loop over them
begins. The jump functions of the callers are read in the middle of
following an exit, and may change before its end; but then the caller's
path edge is pending, and `GivenBack` says nothing about it.
-/
import Tabulation.Proofs.EffectiveFlow
import Tabulation.Proofs.Solver.Flows

namespace Tabulation.Solver

open Supergraph

variable {D W L : Type} [DecidableEq D]
variable {S : Setup D W L} {le : W → W → Prop} {I₀ : Icfg} {s s' : State D W L}

-- ============================================================ propagation

/-- Noting that facts meet is quiet. -/
theorem ensures_noteMerge (d : D) (origin : Option D) :
    Ensures (Failure.Excused I₀) (noteMerge S d origin)
      (fun _ s' => Quiet S s s') s := by
  unfold noteMerge
  cases origin with
  | none => exact Ensures.pure (Quiet.refl s)
  | some o =>
    dsimp only
    split
    · exact Ensures.modify (.aside ..)
    · exact Ensures.pure (Quiet.refl s)

variable [DecidableEq L]

/-- Storing a larger jump function and queueing its path edge. Whether
the path edge is new or has grown does not matter. -/
private theorem advances_enqueue (hle : S.IsGrowthOrder le) (hs : Sound S I₀ s)
    {e : PathEdge D} {w : W} (hder : Derivable S (S.view s.graph) e w)
    (hgrow : ∀ w', s.jump? e = some w' → le w' w) :
    Advances S le I₀ s
      { s.setJump e w with worklist := s.worklist ++ [e] } := by
  have hjump : ∀ e', ({ s.setJump e w with worklist := s.worklist ++ [e] } :
      State D W L).jump? e' = if e = e' then some w else s.jump? e' :=
    fun e' => State.jump?_setJump s e e' w
  -- no path edge loses its jump function
  have hsome : ∀ {e' w'}, s.jump? e' = some w' →
      ∃ w'', (if e = e' then some w else s.jump? e') = some w'' := by
    intro e' w' hw'
    by_cases he : e = e'
    · exact ⟨w, if_pos he⟩
    · exact ⟨w', (if_neg he).trans hw'⟩
  constructor
  · refine ⟨⟨.refl _, fun _ => rfl, ?_, rfl⟩, ?_,
      fun he => List.mem_append_left _ he, id, id, rfl, rfl, rfl⟩
    · intro e' w' hw'
      rw [hjump]
      by_cases he : e = e'
      · subst he
        exact ⟨w, if_pos rfl, hgrow w' hw'⟩
      · exact ⟨w', (if_neg he).trans hw', hle.refl w'⟩
    · intro e'
      by_cases he : e = e'
      · exact Or.inr (List.mem_append_right _ (List.mem_singleton.mpr he.symm))
      · rw [hjump]
        exact Or.inl (if_neg he)
  · refine ⟨hs.origin, ?_, ?_, hs.summary, hs.callFlow, ?_, hs.known⟩
    · intro e' w' hw'
      rw [hjump] at hw'
      split at hw'
      next he =>
        cases hw'
        exact he ▸ hder
      next => exact hs.jump hw'
    · intro e' he'
      rw [hjump]
      rcases List.mem_append.mp he' with hmem | hmem
      · obtain ⟨w', hw'⟩ := hs.worklist hmem
        exact hsome hw'
      · exact ⟨w, if_pos (List.mem_singleton.mp hmem).symm⟩
    · intro i hi
      obtain ⟨g, ts, henter, ht, hentry, d, w', hw'⟩ := hs.incoming hi
      obtain ⟨w'', hw''⟩ := hsome hw'
      exact ⟨g, ts, henter, ht, hentry, d, w'', (hjump _).trans hw''⟩

variable [DecidableEq W]

/-- A path edge that is reached is on record afterwards, with a jump
function above the one it was reached by. -/
theorem ensures_propagate (hle : S.IsGrowthOrder le) (hs : Sound S I₀ s)
    {e : PathEdge D} {w : W} (hder : Derivable S (S.view s.graph) e w)
    (origin : Option D) :
    Ensures (Failure.Excused I₀) (propagate S e w origin)
      (fun _ s' => Advances S le I₀ s s' ∧ AtLeast le s' e w) s := by
  unfold propagate
  refine Ensures.get_bind ?_
  cases hjump : s.jump? e with
  | none =>
    -- nothing was there, so there is nothing to grow from
    have hnew : ∀ w', s.jump? e = some w' → le w' w := by
      intro w' hw'
      rw [hjump] at hw'
      cases hw'
    refine Ensures.modify ⟨advances_enqueue hle hs hder hnew, w, ?_, hle.refl w⟩
    exact (State.jump?_setJump s e e w).trans (if_pos rfl)
  | some previous =>
    dsimp only
    split
    · exact Ensures.throw trivial
    next hcheck =>
      -- the join was accepted, so it is above what was there and what has come
      have hbound : S.config.checkMonotonicity = true →
          S.isUpperBound (S.problem.functions.join previous w) previous
            w = true := by
        intro hon
        simpa [hon] using hcheck
      obtain ⟨hprev, hnew⟩ := hle.join_above hbound
      split
      next hsame =>
        rw [hsame] at hnew
        refine (ensures_noteMerge e.target origin).mono fun _ s' hquiet => ?_
        exact ⟨hquiet.advances hle hs, previous,
            (hquiet.jump? e).trans hjump, hnew⟩
      next =>
        refine Ensures.modify_bind ?_
        have hcount : Quiet S s
            { s with
              stats.jumpFunctionUpdates :=
                s.stats.jumpFunctionUpdates + 1 } := .aside ..
        have hjoin := DerivableBy.join (hs.jump hjump) hder
        have hgrow : ∀ w', s.jump? e = some w' →
            le w' (S.problem.functions.join previous w) := by
          intro w' hw'
          rw [hjump] at hw'
          cases hw'
          exact hprev
        have hadd := advances_enqueue hle (hs.quiet hcount) hjoin hgrow
        refine Ensures.modify ⟨(hcount.advances hle hs).trans hle hadd,
            _, ?_, hnew⟩
        exact (State.jump?_setJump _ e e _).trans (if_pos rfl)

/-- Every target of a flow is on record afterwards. -/
theorem ensures_propagateAll (hle : S.IsGrowthOrder le) (hs : Sound S I₀ s)
    {source origin : D} {node : Node} {through : W} {targets : List (D × W)}
    (hder : ∀ t ∈ targets,
      Derivable S (S.view s.graph) ⟨source, node, t.1⟩ (S.comp through t.2)) :
    Ensures (Failure.Excused I₀)
      (propagateAll S source node through origin targets)
      (fun _ s' => Advances S le I₀ s s' ∧
        ∀ t ∈ targets,
          AtLeast le s' ⟨source, node, t.1⟩ (S.comp through t.2)) s := by
  unfold propagateAll
  refine ensures_forM hle (G := fun (t : D × W) s' =>
    AtLeast le s' ⟨source, node, t.1⟩ (S.comp through t.2))
      (fun h hA => h.extend hle hA) hs
    fun t ht s₁ h₁ => ?_
  exact ensures_propagate hle h₁.sound ((hder t ht).grow h₁.view) _

-- ============================================================ normal edges

/-- Along every normal edge, the targets of the flow are on record
afterwards. -/
theorem ensures_processNormal (hle : S.IsGrowthOrder le) (hsteady : S.IsSteady)
    (hs : Sound S I₀ s) {e : PathEdge D} {f : W} (hf : s.jump? e = some f)
    (hcall : (S.view s.graph).isCall e.node = false)
    (hexit : (S.view s.graph).isExit? e.node = some false) :
    Ensures (Failure.Excused I₀) (processNormal S e)
      (fun _ s' => Advances S le I₀ s s' ∧
        ∀ m ∈ (S.view s.graph).successors e.node,
        ∀ t ∈ S.normalTargets e.node m e.target,
          AtLeast le s' ⟨e.source, m, t.1⟩ (S.comp f t.2)) s := by
  unfold processNormal
  refine (ensures_jumpFunction ⟨f, hf⟩).bind fun f' s' h => ?_
  obtain ⟨rfl, hf'⟩ := h
  obtain rfl : f = f' := Option.some.inj (hf.symm.trans hf')
  refine Ensures.get_bind ?_
  refine ensures_forM hle (G := fun m s' =>
    ∀ t ∈ S.normalTargets e.node m e.target, AtLeast le s' ⟨e.source, m, t.1⟩
    (S.comp f t.2))
    (fun h hA t ht => (h t ht).extend hle hA) hs fun m hm s₁ h₁ => ?_
  refine (ensures_normalFlow hsteady e.node m e.target).bind fun ts s₂ h => ?_
  obtain ⟨hquiet, rfl⟩ := h
  have h₂ := h₁.trans hle (hquiet.advances hle h₁.sound)
  refine (ensures_propagateAll hle h₂.sound fun t ht => ?_).mono
    fun _ s₃ h => ?_
  · exact (DerivableBy.normal (hs.jump hf) hcall hexit hm ht).grow h₂.view
  · exact ⟨(hquiet.advances hle h₁.sound).trans hle h.1, h.2⟩

-- ================================================================== calls

omit [DecidableEq W] in
/-- Noting that a call entered a procedure keeps tables sound, if a
path edge at the call and a call flow stand behind it. -/
theorem ensures_noteEntry (hle : S.IsGrowthOrder le) (hs : Sound S I₀ s)
    {i : Incoming D} {g : Proc} {ts : List (D × W)}
    (henter : (S.view s.graph).Enters i.site g i.start)
    (hflow : s.callFlows.get? i.site (g, i.callFact) = some ts)
    (hentry : i.entry ∈ ts.map Prod.fst)
    (hcaller : ∃ d w, s.jump? ⟨d, i.site, i.callFact⟩ = some w) :
    Ensures (Failure.Excused I₀) (noteEntry S i)
      (fun _ s' => Advances S le I₀ s s' ∧ i ∈ s'.incoming) s := by
  unfold noteEntry
  refine Ensures.optional_bind fun s₁ hs₁ => ?_
  have hquiet : Quiet S s s₁ := by
    rcases hs₁ with rfl | rfl
    · exact Quiet.refl _
    · exact .aside ..
  have h₁ := hquiet.advances hle hs
  refine Ensures.get_bind ?_
  split
  next =>
    refine Ensures.modify ⟨h₁.trans hle ⟨?_, ?_⟩, ?_⟩
    · exact ⟨.of_eq hle rfl rfl rfl, fun e => Or.inl rfl, id,
        fun hi => List.mem_append_left _ hi, id, rfl, rfl, rfl⟩
    · refine ⟨h₁.sound.origin, h₁.sound.jump, h₁.sound.worklist,
        h₁.sound.summary, h₁.sound.callFlow, ?_, h₁.sound.known⟩
      intro i' hi'
      rcases List.mem_append.mp hi' with hmem | hmem
      · exact h₁.sound.incoming hmem
      · rw [List.mem_singleton.mp hmem]
        obtain ⟨d, w, hw⟩ := hcaller
        exact ⟨g, ts, hquiet.view.enters henter, hquiet.callFlows ▸ hflow,
          hentry, d, w, (hquiet.jump? _).trans hw⟩
    · exact List.mem_append_right _ (List.mem_singleton.mpr rfl)
  next hmem => exact Ensures.pure ⟨h₁, Decidable.not_not.mp hmem⟩

variable (S le) in
/-- What is on record once a path edge `e` to a call has entered the
procedure `g` by the target `t` of the call flow. -/
structure EnteredBy (s : State D W L) (e : PathEdge D) (f : W)
    (returnSite? : Option Node) (g : Proc) (start : Node) (t : D × W) :
    Prop where
  atStart : AtLeast le s ⟨t.1, start, t.1⟩ S.identity
  incoming : ⟨start, t.1, e.node, e.target⟩ ∈ s.incoming
  /-- The summaries that are on record have been applied. -/
  returned : ∀ {r k h}, returnSite? = some r → s.summaries.get? k = some h →
    k.proc = g → k.entry = t.1 →
    ∀ u ∈ S.returnTargets e.node g k.exit r k.exitFact e.target,
    AtLeast le s ⟨e.source, r, u.1⟩ (S.comp (S.comp (S.comp f t.2) h) u.2)

omit [DecidableEq W] in
/-- Later tables keep it, because summaries do not change while an edge
is followed. -/
theorem EnteredBy.extend (hle : S.IsGrowthOrder le) {e : PathEdge D} {f : W}
    {r? : Option Node} {g : Proc} {start : Node} {t : D × W}
    (h : EnteredBy S le s e f r? g start t) (hs : Extends S le s s') :
    EnteredBy S le s' e f r? g start t where
  atStart := h.atStart.extend hle hs
  incoming := hs.incoming h.incoming
  returned := by
    intro r k j hr hk hg ht u hu
    rw [hs.summaries] at hk
    exact (h.returned hr hk hg ht u hu).extend hle hs

/-- Summaries that are on record are applied. They follow by the rules,
so what comes of them does too. -/
theorem ensures_applySummaries (hle : S.IsGrowthOrder le) (hsteady : S.IsSteady)
    (hs : Sound S I₀ s) {e : PathEdge D} {f w : W} {g : Proc} {start r : Node}
    {entry : D} (hder : Derivable S (S.view s.graph) e f)
    (henter : (S.view s.graph).Enters e.node g start)
    (ht : (entry, w) ∈ S.callTargets e.node g start e.target)
    (hret : (S.view s.graph).returnSite? e.node = some r) :
    Ensures (Failure.Excused I₀) (applySummaries S e g r entry (S.comp f w))
      (fun _ s' => Advances S le I₀ s s' ∧
        ∀ p ∈ s.summariesOf g entry,
          ∀ u ∈ S.returnTargets e.node g p.1.exit r p.1.exitFact e.target,
            AtLeast le s' ⟨e.source, r, u.1⟩
              (S.comp (S.comp (S.comp f w) p.2) u.2)) s := by
  unfold applySummaries
  refine Ensures.get_bind (Ensures.optional_bind fun s₁ hs₁ => ?_)
  have hquiet : Quiet S s s₁ := by
    rcases hs₁ with rfl | rfl
    · exact Quiet.refl _
    · exact .aside ..
  have h₁ := hquiet.advances hle hs
  refine (ensures_forM hle (G := fun (p : SummaryEdge D × W) s' =>
    ∀ u ∈ S.returnTargets e.node g p.1.exit r p.1.exitFact e.target,
      AtLeast le s' ⟨e.source, r, u.1⟩ (S.comp (S.comp (S.comp f w) p.2) u.2))
    (fun h hA u hu => (h u hu).extend hle hA) h₁.sound
      fun p hp s₂ h₂ => ?_).mono
    fun _ s' h => ⟨h₁.trans hle h.1, h.2⟩
  obtain ⟨k, v⟩ := p
  obtain ⟨hk, hproc, hkentry⟩ := State.mem_summariesOf.mp hp
  -- the list was read off the tables at the beginning, and these were
  -- sound
  obtain ⟨hleave, hsummary⟩ := hs.summary hk
  rw [hproc] at hleave
  rw [hkentry] at hsummary
  refine (ensures_returnFlow hsteady e.node g k.exit r k.exitFact e.target).bind
    fun ts s₃ h => ?_
  obtain ⟨hquiet₃, rfl⟩ := h
  have h₃ := h₂.trans hle (hquiet₃.advances hle h₂.sound)
  refine (ensures_propagateAll hle h₃.sound fun u hu => ?_).mono
    fun _ s₄ h => ?_
  · have hview := (h₁.trans hle h₃).view
    exact DerivableBy.grow hview
      (.ret hder henter ht hsummary hleave hret hu .atCall)
  · exact ⟨(hquiet₃.advances hle h₂.sound).trans hle h.1, h.2⟩

/-- Entering a callee with one fact: the entry is on record, the caller
is noted, and summaries are applied. -/
theorem ensures_enter (hle : S.IsGrowthOrder le) (hsteady : S.IsSteady)
    (hs : Sound S I₀ s) {e : PathEdge D} {f : W} {g : Proc} {start : Node}
    {t : D × W} (hf : ∃ w, s.jump? e = some w)
    (hder : Derivable S (S.view s.graph) e f)
    (henter : (S.view s.graph).Enters e.node g start)
    (hflow : s.callFlows.get? e.node (g, e.target) =
      some (S.callTargets e.node g start e.target))
    (ht : t ∈ S.callTargets e.node g start e.target) :
    Ensures (Failure.Excused I₀)
      (enter S e f g start ((S.view s.graph).returnSite? e.node) t)
      (fun _ s' => Advances S le I₀ s s' ∧
        EnteredBy S le s' e f
          ((S.view s.graph).returnSite? e.node) g start t) s := by
  obtain ⟨entry, w⟩ := t
  unfold enter
  refine (ensures_propagate hle hs (.entry hder henter ht) none).bind
    fun _ s₁ h => ?_
  obtain ⟨h₁, hstart⟩ := h
  have hcaller : ∃ d w, s₁.jump? ⟨d, e.node, e.target⟩ = some w :=
    ⟨e.source, h₁.exists_jump hf⟩
  refine (ensures_noteEntry hle h₁.sound (h₁.view.enters henter)
    (h₁.callFlow hflow) (List.mem_map.mpr ⟨_, ht, rfl⟩) hcaller).bind
    fun _ s₂ h => ?_
  obtain ⟨h₁₂, hnoted⟩ := h
  have h₂ := h₁.trans hle h₁₂
  cases hret : (S.view s.graph).returnSite? e.node with
  | none =>
    refine Ensures.pure ⟨h₂, hstart.extend hle h₁₂.toExtends, hnoted, ?_⟩
    intro r k h hr
    cases hr
  | some r =>
    have hret₂ : (S.view s₂.graph).returnSite? e.node = some r := by
      rw [h₂.view.returnSite?]
      exact hret
    refine (ensures_applySummaries hle hsteady h₂.sound (hder.grow h₂.view)
      (h₂.view.enters henter) ht hret₂).mono fun _ s₃ h => ?_
    obtain ⟨h₂₃, hsummaries⟩ := h
    refine ⟨h₂.trans hle h₂₃, hstart.extend hle (h₁₂.trans hle h₂₃).toExtends,
      h₂₃.incoming hnoted, ?_⟩
    intro r' k h hr hk hg hkentry u hu
    cases hr
    -- applying summaries makes no new ones
    rw [h₂₃.summaries] at hk
    exact hsummaries (k, h) (State.mem_summariesOf.mpr ⟨hk, hg, hkentry⟩) u hu

variable (S le) in
/-- What is on record once a path edge `e` to a call has met the callee
`g`. A callee without a start asks for nothing. -/
def Met (s : State D W L) (I : Icfg) (e : PathEdge D) (f : W) (g : Proc) :
    Prop :=
  ∀ start, I.start? g = some start →
    s.callFlows.get? e.node (g, e.target) =
      some (S.callTargets e.node g start e.target) ∧
      ∀ t ∈ S.callTargets e.node g start e.target,
        EnteredBy S le s e f (I.returnSite? e.node) g start t

omit [DecidableEq W] in
theorem Met.extend (hle : S.IsGrowthOrder le) {I : Icfg} {e : PathEdge D}
    {f : W} {g : Proc} (h : Met S le s I e f g) (hs : Extends S le s s') :
    Met S le s' I e f g := by
  intro start hstart
  obtain ⟨hflow, hentered⟩ := h start hstart
  exact ⟨hs.callFlow hflow, fun t ht => (hentered t ht).extend hle hs⟩

/-- Visiting a callee is meeting it with every fact of its call flow. -/
theorem ensures_visitCallee (hle : S.IsGrowthOrder le) (hsteady : S.IsSteady)
    (hs : Sound S I₀ s) {e : PathEdge D} {f : W} (hf : ∃ w, s.jump? e = some w)
    (hder : Derivable S (S.view s.graph) e f)
    (hcall : (S.view s.graph).isCall e.node = true) {g : Proc}
    (hg : g ∈ (S.view s.graph).callees e.node) (fresh : List Proc) :
    Ensures (Failure.Excused I₀)
      (visitCallee S e f ((S.view s.graph).returnSite? e.node) fresh g)
      (fun _ s' => Advances S le I₀ s s' ∧
        Met S le s' (S.view s.graph) e f g) s := by
  unfold visitCallee
  refine Ensures.get_bind ?_
  cases hstart : (S.view s.graph).start? g with
  | none =>
    have hmet : ∀ s' : State D W L, Met S le s' (S.view s.graph) e f g := by
      intro s' start h
      rw [hstart] at h
      cases h
    dsimp only
    split
    · exact Ensures.modify ⟨Quiet.advances hle (.aside ..) hs, hmet _⟩
    · exact Ensures.pure ⟨hs.advances hle, hmet s⟩
  | some start =>
    have henter : (S.view s.graph).Enters e.node g start := ⟨hcall, hg, hstart⟩
    refine (ensures_callFlow hle hsteady hs henter e.target).bind
      fun ts s₁ h => ?_
    obtain ⟨h₁, rfl, hflow⟩ := h
    refine (ensures_forM hle (G := fun t s' =>
      EnteredBy S le s' e f ((S.view s.graph).returnSite? e.node) g start t)
      (fun h hA => h.extend hle hA) h₁.sound fun t ht s₂ h₂ => ?_).mono
        fun _ s₃ h => ?_
    · have h₀₂ := h₁.trans hle h₂
      rw [← h₀₂.view.returnSite?]
      exact ensures_enter hle hsteady h₂.sound (h₀₂.exists_jump hf)
        (hder.grow h₀₂.view) (h₀₂.view.enters henter) (h₂.callFlow hflow) ht
    · refine ⟨h₁.trans hle h.1, fun start' hstart' => ?_⟩
      obtain rfl : start = start' := Option.some.inj (hstart.symm.trans hstart')
      exact ⟨h.1.callFlow hflow, h.2⟩

/-- The tables once the callees of a call site are known. -/
def acquaint (s : State D W L) (c : Node) (callees : List Proc) : State D W L :=
  { s with known := Listing.addAll s.known (callees.map fun p => (c, p)) }

omit [DecidableEq D] [DecidableEq L] [DecidableEq W] in
theorem mem_known_acquaint {c c' : Node} {callees : List Proc} {g : Proc} :
    (c', g) ∈ (acquaint s c callees).known ↔ (c', g) ∈ s.known ∨ c' = c ∧
    g ∈ callees := by
  simp only [acquaint, Listing.mem_addAll, List.mem_map, Prod.mk.injEq]
  grind

omit [DecidableEq L] [DecidableEq W] in
theorem Sound.acquaint (hs : Sound S I₀ s) (c : Node) :
    Sound S I₀ (acquaint s c ((S.view s.graph).callees c)) := by
  refine ⟨hs.origin, hs.jump, hs.worklist, hs.summary, hs.callFlow,
      hs.incoming, ?_⟩
  intro c' g hk
  rcases mem_known_acquaint.mp hk with hk | ⟨rfl, hg⟩
  · exact hs.known hk
  · exact hg

/-- Following a path edge at a call: every callee of the moment is met,
and the targets of the flow past the call are on record. -/
theorem ensures_processCall (hle : S.IsGrowthOrder le) (hsteady : S.IsSteady)
    (hs : Sound S I₀ s) {e : PathEdge D} {f : W} (hf : s.jump? e = some f)
    (hcall : (S.view s.graph).isCall e.node = true) :
    Ensures (Failure.Excused I₀) (processCall S e)
      (fun _ s' => Advances S le I₀
        (acquaint s e.node ((S.view s.graph).callees e.node)) s' ∧
        (∀ g ∈ (S.view s.graph).callees e.node,
          Met S le s' (S.view s.graph) e f g) ∧
        ∀ {r}, (S.view s.graph).returnSite? e.node = some r →
          ∀ t ∈ S.passTargets e.node r e.target,
            AtLeast le s' ⟨e.source, r, t.1⟩ (S.comp f t.2)) s := by
  unfold processCall
  refine (ensures_jumpFunction ⟨f, hf⟩).bind fun f' s₀ h => ?_
  obtain ⟨rfl, hf'⟩ := h
  obtain rfl : f = f' := Option.some.inj (hf.symm.trans hf')
  refine Ensures.get_bind (Ensures.get_bind (Ensures.modify_bind ?_))
  have hder := hs.jump hf
  refine (ensures_forM hle
    (G := fun g s' => Met S le s' (S.view s₀.graph) e f g)
    (fun h hA => h.extend hle hA) (hs.acquaint e.node)
    fun g hg s₂ h₂ => ?_).bind
    fun _ s₃ h => ?_
  -- the loop has changed the tables, but neither the call nor the start of the
  -- callee
  · have hf₂ : ∃ w, s₂.jump? e = some w := h₂.exists_jump ⟨f, hf⟩
    have hcall₂ : (S.view s₂.graph).isCall e.node = true := by
      rw [h₂.view.isCall]
      exact hcall
    have hvisit := ensures_visitCallee hle hsteady h₂.sound hf₂
      (hder.grow h₂.view) hcall₂ (h₂.view.callees hg)
    rw [h₂.view.returnSite?] at hvisit
    refine (hvisit _).mono fun _ s' h => ⟨h.1, fun start hstart => ?_⟩
    have hstart₂ : (S.view s₂.graph).start? g = some start := by
      rw [h₂.view.start?]
      exact hstart
    have hmet := h.2 start hstart₂
    rw [h₂.view.returnSite?] at hmet
    exact hmet
  obtain ⟨h₃, hmet⟩ := h
  cases hret : (S.view s₀.graph).returnSite? e.node with
  | none =>
    refine Ensures.pure ⟨h₃, hmet, ?_⟩
    intro r hr
    cases hr
  | some r =>
    refine (ensures_evaluate hsteady _ e.target _).bind fun ts s₄ h => ?_
    obtain ⟨hquiet, rfl⟩ := h
    have h₄ := h₃.trans hle (hquiet.advances hle h₃.sound)
    refine (ensures_propagateAll hle h₄.sound fun t ht => ?_).mono
      fun _ s₅ h => ?_
    · exact (DerivableBy.pass hder hcall hret ht).grow h₄.view
    · have h₃₅ := (hquiet.advances hle h₃.sound).trans hle h.1
      refine ⟨h₃.trans hle h₃₅,
        fun g hg => (hmet g hg).extend hle h₃₅.toExtends,
        fun hr t ht => ?_⟩
      cases hr
      exact h.2 t ht

-- ================================================================== exits

variable (S le) in
/-- What a caller on record has got back once the path edge `x` to an
exit of `g`, with the jump function `h`, has been followed. A caller
whose path edge is pending is not spoken of. -/
def GivenBack (s : State D W L) (I : Icfg) (x : PathEdge D) (h : W) (g : Proc)
    (i : Incoming D) : Prop :=
  ∀ {r w}, I.returnSite? i.site = some r →
    (i.entry, w) ∈ S.callTargets i.site g i.start i.callFact →
    ∀ u ∈ S.returnTargets i.site g x.node r x.target i.callFact,
    ∀ {d j}, s.jump? ⟨d, i.site, i.callFact⟩ = some j →
      ⟨d, i.site, i.callFact⟩ ∈ s.worklist ∨
        AtLeast le s ⟨d, r, u.1⟩ (S.comp j (S.comp (S.comp w h) u.2))

omit [DecidableEq W] in
theorem GivenBack.extend (hle : S.IsGrowthOrder le) {I : Icfg} {x : PathEdge D}
    {h : W} {g : Proc} {i : Incoming D} (hgiven : GivenBack S le s I x h g i)
    (hs : Extends S le s s') : GivenBack S le s' I x h g i := by
  intro r w hr hw u hu d j hj
  by_cases hpending : (⟨d, i.site, i.callFact⟩ : PathEdge D) ∈ s'.worklist
  · exact Or.inl hpending
  · rw [← hs.jump_eq hpending] at hj
    rcases hgiven hr hw u hu hj with hmem | hatLeast
    · exact Or.inl (hs.worklist hmem)
    · exact Or.inr (hatLeast.extend hle hs)

/-- Returning to one caller. Its jump functions are read once, so a
caller whose jump function changes meanwhile is pending and is not
spoken of. -/
theorem ensures_returnTo (hle : S.IsGrowthOrder le) (hsteady : S.IsSteady)
    (hs : Sound S I₀ s) {x : PathEdge D} {h : W} {g : Proc} {i : Incoming D}
    (hder : Derivable S (S.view s.graph) x h)
    (hleave : (S.view s.graph).Leaves x.node g)
    (henter : (S.view s.graph).Enters i.site g i.start)
    (hentry : i.entry = x.source) {ts : List (D × W)}
    (hflow : s.callFlows.get? i.site (g, i.callFact) = some ts)
    (hmem : i.entry ∈ ts.map Prod.fst) :
    Ensures (Failure.Excused I₀) (returnTo S x h g i)
      (fun _ s' => Advances S le I₀ s s' ∧
        GivenBack S le s' (S.view s.graph) x h g i) s := by
  unfold returnTo
  refine Ensures.get_bind ?_
  cases hret : (S.view s.graph).returnSite? i.site with
  | none =>
    refine Ensures.pure ⟨hs.advances hle, ?_⟩
    intro r w hr
    rw [hret] at hr
    cases hr
  | some r =>
    refine (ensures_entryFunction hflow hmem).bind fun w s₀ hw => ?_
    obtain ⟨rfl, hw⟩ := hw
    obtain ⟨start, henter', hts⟩ := hs.callFlow hflow
    obtain rfl : start = i.start :=
      Option.some.inj (henter'.start.symm.trans henter.start)
    subst hts
    refine (ensures_returnFlow hsteady i.site g x.node r x.target
      i.callFact).bind fun us s₁ hus => ?_
    obtain ⟨hquiet, rfl⟩ := hus
    have h₁ := hquiet.advances hle hs
    refine Ensures.get_bind ?_
    -- every return target is carried to every caller, by the jump function read
    -- here
    refine (ensures_forM hle
        (G := fun (u : D × W) s' => ∀ p ∈ s₁.sourcesOf i.site i.callFact,
        AtLeast le s' ⟨p.1, r, u.1⟩ (S.comp p.2 (S.comp (S.comp w h) u.2)))
      (fun hG hA p hp => (hG p hp).extend hle hA) h₁.sound
        fun u hu s₂ h₂ => ?_).mono
      fun _ s₃ hloop => ?_
    · refine ensures_forM hle (G := fun (p : D × W) s' =>
        AtLeast le s' ⟨p.1, r, u.1⟩ (S.comp p.2 (S.comp (S.comp w h) u.2)))
        (fun hG hA => hG.extend hle hA) h₂.sound fun p hp s₃ h₃ => ?_
      have hcaller := h₁.sound.jump (State.mem_sourcesOf.mp hp)
      have hthrough : Derivable S (S.view s₁.graph)
          ⟨i.entry, x.node, x.target⟩ h := by
        rw [hentry]
        exact hder.grow hquiet.view
      have hback : Derivable S (S.view s₁.graph) ⟨p.1, r, u.1⟩ _ :=
        .ret hcaller (hquiet.view.enters henter) hw hthrough
          (hquiet.view.leaves_iff.mpr hleave)
          (by rw [hquiet.view.returnSite?]; exact hret) hu .atExit
      exact ensures_propagate hle h₃.sound (hback.grow (h₂.trans hle h₃).view) _
    · obtain ⟨h₁₃, hgiven⟩ := hloop
      refine ⟨h₁.trans hle h₁₃, fun {r'} {w'} hr hw' u hu {d} {j} hj => ?_⟩
      obtain rfl : r = r' := Option.some.inj (hret.symm.trans hr)
      obtain rfl : w = w' := S.targets_unique hw hw'
      by_cases hpending : (⟨d, i.site, i.callFact⟩ : PathEdge D) ∈ s₃.worklist
      · exact Or.inl hpending
      · rw [← h₁₃.jump_eq hpending] at hj
        exact Or.inr (hgiven u hu (d, j) (State.mem_sourcesOf.mpr hj))

omit [DecidableEq L] [DecidableEq W] in
/-- Putting a summary on record keeps tables sound. -/
theorem Sound.insert_summary (hs : Sound S I₀ s) {x : PathEdge D} {h : W}
    {g : Proc} (hder : Derivable S (S.view s.graph) x h)
    (hleave : (S.view s.graph).Leaves x.node g) :
    Sound S I₀
      { s with
        summaries :=
          s.summaries.insert ⟨g, x.source, x.node, x.target⟩ h } := by
  refine ⟨hs.origin, hs.jump, hs.worklist, ?_, hs.callFlow,
      hs.incoming, hs.known⟩
  intro k w hk
  rw [Table.get?_insert] at hk
  split at hk
  next heq =>
    cases hk
    subst heq
    exact ⟨hleave, hder⟩
  next => exact hs.summary hk

/-- Following a path edge at an exit: the summary is on record, and
everybody who entered has been given back what it gives. This is where
starts have to belong to their procedures. -/
theorem ensures_processExit (hle : S.IsGrowthOrder le) (hsteady : S.IsSteady)
    (hown : ∀ {p : Proc} {n : Node}, I₀.start? p = some n →
      I₀.procOf? n = some p) (hs : Sound S I₀ s) {x : PathEdge D} {h : W}
    (hh : s.jump? x = some h) (hcall : (S.view s.graph).isCall x.node = false)
    (hexit : (S.view s.graph).isExit? x.node = some true) :
    Ensures (Failure.Excused I₀) (processExit S x)
      (fun _ s' => ∃ g start, (S.view s.graph).Leaves x.node g ∧
        (S.view s.graph).start? g = some start ∧
        Advances S le I₀
          { s with
            summaries := s.summaries.insert ⟨g, x.source, x.node, x.target⟩ h }
          s' ∧
        ∀ i ∈ s.incoming, i.start = start → i.entry = x.source →
          GivenBack S le s' (S.view s.graph) x h g i) s := by
  unfold processExit
  refine (ensures_jumpFunction ⟨h, hh⟩).bind fun h' s₀ hfound => ?_
  obtain ⟨rfl, hh'⟩ := hfound
  obtain rfl : h = h' := Option.some.inj (hh.symm.trans hh')
  refine Ensures.get_bind ((ensures_askOf x.node _).bind fun g s₁ hg => ?_)
  obtain ⟨rfl, hg⟩ := hg
  have hleave : (S.view s₁.graph).Leaves x.node g := ⟨hcall, hexit, hg⟩
  cases hstart : (S.view s₁.graph).start? g with
  | none =>
    refine Ensures.throw ⟨?_, ?_⟩
    · rw [← hs.origin.procOf?]
      exact hg
    · rw [← hs.origin.start?]
      exact hstart
  | some start =>
    refine Ensures.modify_bind (Ensures.get_bind ?_)
    have hder := hs.jump hh
    have hs₂ := hs.insert_summary hder hleave
    refine (ensures_forM hle
      (G := fun i s' => GivenBack S le s' (S.view s₁.graph) x h g i)
      (fun hG hA => GivenBack.extend hle hG hA) hs₂ fun i hi s₃ h₃ => ?_).mono
      fun _ s₄ hloop => ⟨g, start, hleave, hstart, hloop.1, ?_⟩
    · obtain ⟨hinc, hi, hentry⟩ := State.mem_callersOf.mp hi
      obtain ⟨g', ts, henter, hflow, hmem, _⟩ := hs.incoming hinc
      -- a start belongs to one procedure, so the entry was made into `g`
      have hgg' : g' = g := by
        have h1 : I₀.procOf? i.start = some g' :=
          hown (by rw [← hs.origin.start?]; exact henter.start)
        have h2 : I₀.procOf? start = some g :=
          hown (by rw [← hs.origin.start?]; exact hstart)
        rw [hi] at h1
        exact Option.some.inj (h1.symm.trans h2)
      subst hgg'
      have hto := ensures_returnTo hle hsteady h₃.sound (hder.grow h₃.view)
        (h₃.view.leaves_iff.mpr hleave) (h₃.view.enters henter) hentry
          (h₃.callFlow hflow) hmem
      refine hto.mono fun _ s₅ hback => ⟨hback.1, fun {r} {w} hr => ?_⟩
      refine hback.2 ?_
      rw [h₃.view.returnSite?]
      exact hr
    · intro i hinc hi hentry
      exact hloop.2 i (State.mem_callersOf.mpr ⟨hinc, hi, hentry⟩)

end Tabulation.Solver
