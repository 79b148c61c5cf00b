/-
The computations of the solver make moves.

For every computation of the first phase, the tables it leaves are
reached by moves from those it found (`Trail`, `Course`), whatever the
problem is like. So any property that moves keep is kept by the
computation, and a loop that goes on forever would make moves forever.

# Failures

Which failures are allowed is left open. `Guards` names an invariant of
the moves and says what has to be allowed where it holds: faults for
questions without an answer, verdicts on joins, and gaps in the tables.
That there are no gaps is known from elsewhere (`Solver/Following`).

# Notes on returns

Callers and summaries meet in two ways: a call finds summaries, and an
exit finds callers. Either way the return is noted before anything else
happens (`Balanced`), unless procedures share a start and the one is
taken for the other.

# Call flows

A call flow is put on record before the callee is entered with its
facts. Once the visit is over, the callee has been entered with all of
them (`Filled`).
-/
import Tabulation.Proofs.Solver.Moves

namespace Tabulation.Solver

variable {D W L : Type} [DecidableEq D]

section Vocabulary

variable [DecidableEq L] (S : Setup D W L)

/-- The questions without an answer that the tables give reason to ask.
A run that stops with a fault has asked one of them; in a problem that
answers everything (`Landing`) there are none. -/
inductive Unanswered (s : State D W L) : Fault → Prop
  | isIdentity {e : PathEdge D} {fault : Fault} : Recorded s e →
      S.problem.isIdentityAt e.node = .error fault → Unanswered s fault
  | flow {e : PathEdge D} (edge : FlowEdge) {fault : Fault} : Recorded s e →
      edge.source = e.node → edge.kind ≠ .ret →
      S.problem.flow edge e.target = .error fault → Unanswered s fault
  | back {i : Incoming D} {k : SummaryEdge D} {r : Node} {fault : Fault} :
      i ∈ s.incoming → Summarized s k →
      S.problem.returnFlow (.ret i.site k.proc k.exit r) k.exitFact i.callFact =
        .error fault →
      Unanswered s fault
  | owner {e : PathEdge D} : Recorded s e →
      (S.view s.graph).procOf? e.node = none →
      Unanswered s (.unknownNode e.node)
  | exit {e : PathEdge D} : Recorded s e →
      (S.view s.graph).isExit? e.node = none →
      Unanswered s (.unknownNode e.node)

/-- An invariant of the moves, and failures that are allowed where it
holds. The first four fields make `Inv` survive a run; the last three
list what a run may stop with. -/
structure Guards (I₀ : Icfg) (Inv : State D W L → Prop)
    (E : Failure D W L → Prop) : Prop where
  steady : S.IsSteady
  /-- What every run keeps is part of the invariant. -/
  kept : ∀ {s}, Inv s → Kept S I₀ s
  stride : ∀ {s s'}, Inv s → Stride S s s' → Inv s'
  relist : ∀ {s pending}, Inv s → (∀ {e}, e ∈ pending → Recorded s e) →
    ∀ seen iterations rescans, Inv (relisted s pending seen iterations rescans)
  /-- A gap in the tables is always allowed: that there is none is
  proved in `Solver/Following`. -/
  gap : ∀ gap, E (.rejected (.inconsistent gap))
  fault : ∀ {s fault}, Inv s → Unanswered S s fault → E (.fault fault)
  regress : ∀ {s e f g}, Inv s → s.jump? e = some f →
    S.config.checkMonotonicity = true →
    S.isUpperBound (S.problem.functions.join f g) f g = false →
    E (.rejected (.functionRegressed e.node e.target f g
        (S.problem.functions.join f g)))

/-- A procedure has a start that it does not share. Callers are on
record under the start that they entered, so only such a start tells
which procedure they called. -/
structure SoleStart (start? : Proc → Option Node) (p : Proc) (n : Node) :
    Prop where
  eq : start? p = some n
  only : ∀ {q}, start? q = some n → q = p

/-- Every return from a summary to a caller, both on record, is noted.
It does not matter which of the two came first. -/
def Balanced (s : State D W L) : Prop :=
  ∀ i k r, i ∈ s.incoming → Summarized s k →
    SoleStart (S.view s.graph).start? k.proc i.start → k.entry = i.entry →
    (S.view s.graph).returnSite? i.site = some r →
    Noted S s (.ret i.site k.proc k.exit r) k.exitFact
      (S.returnTargets i.site k.proc k.exit r k.exitFact i.callFact)

/-- Callees have been entered with every fact of the call flows on
record. In the middle of a visit this fails for the callee that is
visited, which is why it is not part of `Tidy`. -/
def Filled (s : State D W L) : Prop :=
  ∀ c g d ts start, s.callFlows.get? c (g, d) = some ts →
    (S.view s.graph).start? g = some start →
    ∀ t ∈ ts, Recorded s ⟨t.1, start, t.1⟩

/-- A course that notes the returns it makes possible, and makes no
acquaintances: the call flows and the known callees are those from
before. -/
structure Tidy (s s' : State D W L) : Prop where
  course : Course S s s'
  balanced : Balanced S s → Balanced S s'
  callFlows : s'.callFlows = s.callFlows
  known : s'.known = s.known
  bodiless : s'.stats.bodilessCallees = s.stats.bodilessCallees

end Vocabulary

variable {S : Setup D W L} {I₀ : Icfg} {Inv : State D W L → Prop}
variable {E : Failure D W L → Prop}
variable {s s' s'' : State D W L}

-- ================================================================= asking

omit [DecidableEq D] in
/-- Asking changes nothing, and stops the run only with the fault that
was the answer. Where the fault is allowed, the answer is what the
question says. -/
theorem ensures_ask_of {α : Type} {answer : Except Fault α}
    (h : ∀ fault, answer = .error fault → E (.fault fault)) :
    Ensures E (ask answer : SolverM D W L α)
      (fun a s' => s' = s ∧ answer = .ok a) s := by
  cases answer with
  | ok a => exact Ensures.pure ⟨rfl, rfl⟩
  | error fault => exact Ensures.throw (h fault rfl)

omit [DecidableEq D] in
/-- The same of a question about a node, which is a fault if the graph
does not have the node. -/
theorem ensures_askOf_of {α : Type} {node : Node} {answer : Option α}
    (h : answer = none → E (.fault (.unknownNode node))) :
    Ensures E (askOf node answer : SolverM D W L α)
      (fun a s' => s' = s ∧ answer = some a) s := by
  cases answer with
  | some a => exact Ensures.pure ⟨rfl, rfl⟩
  | none => exact Ensures.throw (h rfl)

/-- Reading the jump function of a path edge gives the one on record; a
path edge without one is a gap. -/
theorem ensures_jumpFunction_of
    (hgap : ∀ gap, E (.rejected (.inconsistent gap))) (e : PathEdge D) :
    Ensures E (jumpFunction e : SolverM D W L W)
      (fun w s' => s' = s ∧ s.jump? e = some w) s := by
  refine Ensures.get_bind ?_
  cases hjump : s.jump? e with
  | some w => exact Ensures.pure ⟨rfl, rfl⟩
  | none => exact Ensures.throw (hgap _)

/-- Reading the function with which a callee was entered changes
nothing. Which function it is does not matter to the moves. -/
theorem ensures_entryFunction_of
    (hgap : ∀ gap, E (.rejected (.inconsistent gap))) (site : Node)
    (callee : Proc) (callFact entry : D) :
    Ensures E (entryFunction site callee callFact entry : SolverM D W L W)
      (fun _ s' => s' = s) s := by
  refine Ensures.get_bind ?_
  dsimp only
  split
  · exact Ensures.pure rfl
  · exact Ensures.throw (hgap _)

/-- One caller more, to whom every return is noted. Returns to the
other callers were noted before, since no summary is new. -/
theorem Balanced.enter (hs : Balanced S s) (h : Grows S s s')
    (hsum : s'.summaries = s.summaries) {i : Incoming D}
    (hinc : ∀ j ∈ s'.incoming, j ∈ s.incoming ∨ j = i)
    (hnew : ∀ k r, Summarized s' k →
      SoleStart (S.view s'.graph).start? k.proc i.start → k.entry = i.entry →
      (S.view s'.graph).returnSite? i.site = some r →
      Noted S s' (.ret i.site k.proc k.exit r) k.exitFact
        (S.returnTargets i.site k.proc k.exit r k.exitFact i.callFact)) :
    Balanced S s' := by
  intro j k r hj hk hstart hentry hr
  rcases hinc j hj with hj | rfl
  · unfold Summarized at hk
    rw [hsum] at hk
    rw [h.view.start?] at hstart
    rw [h.view.returnSite?] at hr
    exact (hs j k r hj hk hstart hentry hr).grow h
  · exact hnew k r hk hstart hentry hr

/-- One summary more, from which every return is noted. Returns from
the other summaries were noted before, since no caller is new. -/
theorem Balanced.summarize (hs : Balanced S s) (h : Grows S s s')
    (hinc : s'.incoming = s.incoming) {key : SummaryEdge D} {w : W}
    (hsum : s'.summaries = s.summaries.insert key w)
    (hnew : ∀ i r, i ∈ s.incoming →
      (S.view s.graph).start? key.proc = some i.start → key.entry = i.entry →
      (S.view s.graph).returnSite? i.site = some r →
      Noted S s' (.ret i.site key.proc key.exit r) key.exitFact
        (S.returnTargets i.site key.proc key.exit r key.exitFact i.callFact)) :
    Balanced S s' := by
  intro i k r hi hk hstart hentry hr
  rw [hinc] at hi
  rw [h.view.start?] at hstart
  rw [h.view.returnSite?] at hr
  obtain ⟨v, hk⟩ := hk
  rw [hsum, Table.get?_insert] at hk
  split at hk
  next heq =>
    subst heq
    exact hnew i r hi hstart.eq hentry hr
  next => exact (hs i k r hi ⟨v, hk⟩ hstart hentry hr).grow h

/-- Where no call flow is new, callees stay entered: path edges on
record stay there. -/
theorem Filled.grow (hs : Filled S s) (h : Grows S s s')
    (hflows : s'.callFlows = s.callFlows) : Filled S s' := by
  intro c g d ts start hts hstart t ht
  rw [hflows] at hts
  rw [h.view.start?] at hstart
  exact h.recorded (hs c g d ts start hts hstart t ht)

variable [DecidableEq L]

/-- An invariant of the single strides is one of every course. -/
theorem Guards.course (hG : Guards S I₀ Inv E) (hs : Inv s)
    (h : Course S s s') : Inv s' := by
  induction h with
  | refl => exact hs
  | tail _ hstride ih => exact hG.stride ih hstride

/-- And so of every trail, which is a course of moves only. -/
theorem Guards.trail (hG : Guards S I₀ Inv E) (hs : Inv s) (h : Trail S s s') :
    Inv s' :=
  hG.course hs h.course

/-- A trail leaves callers and summaries alone, and notes stay. So it
can make no return possible that is not noted. -/
theorem Balanced.trail (hsteady : S.IsSteady) (hs : Balanced S s)
    (h : Trail S s s') : Balanced S s' := by
  intro i k r hi hk hstart hentry hr
  have hgrows := h.grows hsteady
  have hspares := h.spares
  rw [hspares.incoming] at hi
  unfold Summarized at hk
  rw [hspares.summaries] at hk
  rw [hgrows.view.start?] at hstart
  rw [hgrows.view.returnSite?] at hr
  exact (hs i k r hi hk hstart hentry hr).grow hgrows

/-- A trail is tidy: the tables that `Tidy` speaks of are among those
it spares. -/
theorem Trail.tidy (hsteady : S.IsSteady) (h : Trail S s s') : Tidy S s s' :=
  ⟨h.course, fun hs => hs.trail hsteady h, h.spares.callFlows, h.spares.known,
    h.spares.bodiless⟩

theorem Tidy.refl (s : State D W L) : Tidy S s s := ⟨.refl, id, rfl, rfl, rfl⟩

/-- One tidy course after another is tidy. This is what loops over
targets need. -/
theorem Tidy.trans (h : Tidy S s s') (h' : Tidy S s' s'') : Tidy S s s'' :=
  ⟨h.course.trans h'.course, fun hs => h'.balanced (h.balanced hs),
    h'.callFlows.trans h.callFlows, h'.known.trans h.known,
    h'.bodiless.trans h.bodiless⟩

-- ================================================================== flows

/-- Taking over an answer is one move, after which the flow is noted.
Zero has a number from the start, so it may be among the targets
without being in the answer. -/
theorem trail_accept (hs : Kept S I₀ s) {edge : FlowEdge} {d : D}
    {answer : List (D × W)} (hx : Crosses S s edge d (S.effective d answer)) :
    Ensures E (accept S edge d answer)
      (fun ts s' => ts = S.effective d answer ∧ Trail S s s' ∧
        Noted S s' edge d ts) s := by
  -- whether edges are recorded is decided inside the move, so both facts are
  -- stated before the cases are split
  have hmove :
    Move S s (logged S s edge d (answer.map Prod.fst) (S.effective d answer)) :=
    .cross hx fun e he => S.mem_fst_effective.mpr (Or.inl he)
  have hnoted :
      Noted S (logged S s edge d (answer.map Prod.fst) (S.effective d answer))
      edge d (S.effective d answer) := by
    refine noted_logged fun t ht => ?_
    rcases S.mem_fst_effective.mp (List.mem_map.mpr ⟨t, ht, rfl⟩)
      with hmem | ⟨_, _, hzero⟩
    · exact Or.inr hmem
    · rw [hzero]
      exact Or.inl hs.zero
  unfold accept
  refine Ensures.modify_bind ?_
  unfold logged at hmove hnoted
  split
  next hon =>
    rw [if_pos hon] at hmove hnoted
    exact Ensures.modify_bind (Ensures.pure ⟨rfl, .single hmove, hnoted⟩)
  next hoff =>
    rw [if_neg hoff] at hmove hnoted
    exact Ensures.pure ⟨rfl, .single hmove, hnoted⟩

/-- Evaluating a flow is two moves: its requests are served, and its
answer is taken over. The flow has to be one that the tables give
reason to evaluate. -/
theorem trail_evaluate (hG : Guards S I₀ Inv E) (hs : Inv s) {edge : FlowEdge}
    {d : D} {answer : Except Fault (List (D × W))}
    (hx : Crosses S s edge d (S.targets d answer))
    (hfault : ∀ fault, answer = .error fault → E (.fault fault)) :
    Ensures E (evaluate S edge d answer)
      (fun ts s' => ts = S.targets d answer ∧ Trail S s s' ∧
        Noted S s' edge d ts) s := by
  unfold evaluate
  refine Ensures.modify_bind ?_
  have hserve : Move S s (served S s edge d) := .serve s edge d
  refine (ensures_ask_of (s := served S s edge d) hfault).bind fun a s₁ h => ?_
  obtain ⟨rfl, rfl⟩ := h
  have hs₁ := hG.stride hs (.move hserve)
  refine (trail_accept (hG.kept hs₁) (hx.grow (hserve.grows hG.steady))).mono
    fun ts s₂ h => ?_
  exact ⟨h.1, .head hserve h.2.1, h.2.2⟩

/-- Crossing a normal edge. At an identity node the flow function is
not asked, and the targets are those of the identity. -/
theorem trail_normalFlow (hG : Guards S I₀ Inv E) (hs : Inv s) {e : PathEdge D}
    {m : Node} (he : Recorded s e)
    (hcall : (S.view s.graph).isCall e.node = false)
    (hexit : (S.view s.graph).isExit? e.node = some false)
    (hm : m ∈ (S.view s.graph).successors e.node) :
    Ensures E (normalFlow S e.node m e.target)
      (fun ts s' => ts = S.normalTargets e.node m e.target ∧ Trail S s s' ∧
        Noted S s' (.normal e.node m) e.target ts) s := by
  have hx := Crosses.normal he hcall hexit hm
  unfold Setup.normalTargets at hx ⊢
  unfold normalFlow
  refine (ensures_ask_of fun fault h => hG.fault hs (.isIdentity he h)).bind
    fun isIdentity s₁ h => ?_
  obtain ⟨rfl, hident⟩ := h
  rw [hident] at hx ⊢
  cases isIdentity with
  | true => exact trail_accept (hG.kept hs) hx
  | false =>
    exact trail_evaluate hG hs hx fun fault h =>
      hG.fault hs (.flow (.normal e.node m) he rfl nofun h)

/-- Returning from a summary to a caller, both on record. Which caller
may get which summary is what the hypotheses about the start and the
entry fact say. -/
theorem trail_returnFlow (hG : Guards S I₀ Inv E) (hs : Inv s) {i : Incoming D}
    {k : SummaryEdge D} {r : Node} (hi : i ∈ s.incoming) (hk : Summarized s k)
    (hstart : (S.view s.graph).start? k.proc = some i.start)
    (hentry : k.entry = i.entry)
    (hr : (S.view s.graph).returnSite? i.site = some r) :
    Ensures E (returnFlow S i.site k.proc k.exit r k.exitFact i.callFact)
      (fun ts s' => ts = S.returnTargets i.site k.proc k.exit r k.exitFact
        i.callFact ∧ Trail S s s' ∧
        Noted S s' (.ret i.site k.proc k.exit r) k.exitFact ts) s :=
  trail_evaluate hG hs (.ret hi hk hstart hentry hr) fun _ h =>
    hG.fault hs (.back hi hk h)

/-- A course that puts the flow into a callee on record, and no other.
It is the first half of a visit; the callee has not been entered yet. -/
structure Called (S : Setup D W L) (e : PathEdge D) (g : Proc) (start : Node)
    (s s' : State D W L) : Prop where
  course : Course S s s'
  balanced : Balanced S s → Balanced S s'
  noted : Noted S s' (.call e.node g start) e.target
    (S.callTargets e.node g start e.target)
  callFlow : s'.callFlows.get? e.node (g, e.target) =
    some (S.callTargets e.node g start e.target)
  /-- All other call flows were on record before. -/
  others : ∀ {c k ts}, s'.callFlows.get? c k = some ts →
    s.callFlows.get? c k = some ts ∨ c = e.node ∧ k = (g, e.target)
  known : s'.known = s.known
  bodiless : s'.stats.bodilessCallees = s.stats.bodilessCallees

/-- The flow into a callee is evaluated the first time it is asked for.
Any other time it is found on record, noted as it was then. -/
theorem called_callFlow (hG : Guards S I₀ Inv E) (hs : Inv s) {e : PathEdge D}
    {g : Proc} {start : Node} (he : Recorded s e)
    (henter : (S.view s.graph).Enters e.node g start) :
    Ensures E (callFlow S e.node g start e.target)
      (fun ts s' => ts = S.callTargets e.node g start e.target ∧
        Called S e g start s s') s := by
  unfold callFlow
  refine Ensures.get_bind ?_
  cases hget : s.callFlows.get? e.node (g, e.target) with
  | some ts =>
    -- what is on record may be about another start only in name: a procedure
    -- has one
    obtain ⟨start', henter', hts, hnoted⟩ := (hG.kept hs).callFlow hget
    obtain rfl : start' = start :=
      Option.some.inj (henter'.start.symm.trans henter.start)
    rw [hts] at hnoted hget
    exact Ensures.pure ⟨hts, .refl, id, hnoted, hget, Or.inl, rfl, rfl⟩
  | none =>
    have hx := Crosses.call he henter
    have hfault : ∀ fault, S.problem.flow (.call e.node g start) e.target =
        .error fault → E (.fault fault) :=
      fun _ h => hG.fault hs (.flow (.call e.node g start) he rfl nofun h)
    refine (trail_evaluate hG hs hx hfault).bind fun ts s₁ h => ?_
    obtain ⟨rfl, htrail, hnoted⟩ := h
    refine Ensures.modify_bind (Ensures.pure ?_)
    have hspares := htrail.spares
    have hnone : s₁.callFlows.get? e.node (g, e.target) = none := by
      rw [hspares.callFlows]
      exact hget
    have hcache := Stride.cache (hx.grow (htrail.grows hG.steady)) hnoted hnone
    have hgrows := hcache.grows hG.steady
    refine ⟨rfl, htrail.course.tail hcache, fun hbal => ?_, hnoted.grow hgrows,
      Grid.get?_insert_self .., fun {c k us} hus => ?_, hspares.known,
      hspares.bodiless⟩
    · have hbal₁ := hbal.trail hG.steady htrail
      exact fun i k r hi hk hstart hentry hr =>
        (hbal₁ i k r hi hk hstart hentry hr).grow hgrows
    · rw [Grid.get?_insert, hspares.callFlows] at hus
      split at hus
      next hk => exact Or.inr ⟨hk.1.symm, hk.2.symm⟩
      next => exact Or.inl hus

-- ============================================================ propagation

omit [DecidableEq L] in
/-- Noting that two facts meet changes the links at most. -/
theorem ensures_noteMerge_of (d : D) (origin : Option D) :
    Ensures E (noteMerge S d origin)
      (fun _ s' => ∃ links, s' = { s with links }) s := by
  unfold noteMerge
  cases origin with
  | none => exact Ensures.pure ⟨s.links, rfl⟩
  | some o =>
    dsimp only
    split
    · exact Ensures.modify ⟨_, rfl⟩
    · exact Ensures.pure ⟨s.links, rfl⟩

variable [DecidableEq W]

/-- Letting a path edge be reached stores it, notes a merge at most, or
raises its jump function. A join that is not above both functions is a
failure, if the settings ask to check. -/
theorem ensures_propagate_of {e : PathEdge D} {w : W} (origin : Option D)
    (hregress : ∀ f, s.jump? e = some f → S.config.checkMonotonicity = true →
      S.isUpperBound (S.problem.functions.join f w) f w = false →
      E (.rejected (.functionRegressed e.node e.target f w
        (S.problem.functions.join f w)))) :
    Ensures E (propagate S e w origin)
      (fun _ s' => s.jump? e = none ∧ s' = queued s e w ∨
        (∃ links, Recorded s e ∧ s' = { s with links }) ∨
        ∃ f, s.jump? e = some f ∧
          (S.config.checkMonotonicity = true →
            S.isUpperBound (S.problem.functions.join f w) f w = true) ∧
          S.problem.functions.join f w ≠ f ∧
          s' = queued
            { s with
              stats.jumpFunctionUpdates := s.stats.jumpFunctionUpdates + 1 }
            e (S.problem.functions.join f w)) s := by
  unfold propagate
  refine Ensures.get_bind ?_
  cases hjump : s.jump? e with
  | none => exact Ensures.modify (Or.inl ⟨rfl, rfl⟩)
  | some previous =>
    dsimp only
    split
    next hbad =>
      obtain ⟨hon, hbad⟩ := Bool.and_eq_true _ _ ▸ hbad
      exact Ensures.throw
        (hregress previous hjump hon (Bool.not_eq_true' _ ▸ hbad))
    next hcheck =>
      split
      · refine (ensures_noteMerge_of e.target origin).mono fun _ s' h => ?_
        obtain ⟨links, rfl⟩ := h
        exact Or.inr (Or.inl ⟨links, ⟨previous, hjump⟩, rfl⟩)
      next hne =>
        refine Ensures.modify_bind
          (Ensures.modify (Or.inr (Or.inr ⟨previous, rfl, ?_, hne, rfl⟩)))
        intro hon
        simpa [hon] using hcheck

/-- In all three cases letting a path edge be reached is one move, and
the path edge is on record afterwards. -/
theorem trail_propagate (hG : Guards S I₀ Inv E) (hs : Inv s) {e : PathEdge D}
    (harises : Arises S s e) (w : W) (origin : Option D) :
    Ensures E (propagate S e w origin)
      (fun _ s' => Trail S s s' ∧ Recorded s' e) s := by
  refine (ensures_propagate_of origin fun f hf hon hbad =>
    hG.regress hs hf hon hbad).mono fun _ s' h => ?_
  rcases h with ⟨hnew, rfl⟩ | ⟨links, he, rfl⟩ | ⟨f, hf, hok, hne, rfl⟩
  · exact ⟨.single (.store w hnew harises), recorded_queued ..⟩
  · exact ⟨.single (.note s links s.stats.summaryReuses), he⟩
  · exact ⟨.single (.raise hf hok hne), recorded_queued ..⟩

/-- Every target of a flow that is noted is let be reached. Each step
of the loop has the reason that the flow gave, since reasons stay when
tables grow. -/
theorem trail_propagateAll (hG : Guards S I₀ Inv E) (hs : Inv s)
    {edge : FlowEdge} {d : D} {ts : List (D × W)} (hx : Crosses S s edge d ts)
    (hnoted : Noted S s edge d ts) {e : PathEdge D} (he : Recorded s e)
    (hresumes : Resumes edge e.node) (through : W) (origin : D) :
    Ensures E (propagateAll S e.source edge.target through origin ts)
      (fun _ s' => Trail S s s') s := by
  unfold propagateAll
  refine (Ensures.forM (A := Trail S) (G := fun _ _ => True) (fun _ => .refl)
    (fun h h' => h.trans h') (fun _ _ => trivial) .refl
    fun t ht s₁ h₁ => ?_).mono
    fun _ _ h => h.1
  have hgrows := h₁.grows hG.steady
  have harises := Arises.within (hx.grow hgrows) (hnoted.grow hgrows) ht
    (hgrows.recorded he) hresumes
  exact (trail_propagate hG (hG.trail hs h₁) harises _ _).mono fun _ _ h =>
    ⟨h.1, trivial⟩

/-- A flow is evaluated, and its targets are let be reached. The
computations of the solver that cross an edge inside a procedure all
have this form. -/
theorem trail_carry (hG : Guards S I₀ Inv E) (hs : Inv s) {edge : FlowEdge}
    {d : D} {ts : List (D × W)} (hx : Crosses S s edge d ts) {e : PathEdge D}
    (he : Recorded s e) (hresumes : Resumes edge e.node)
    {flow : SolverM D W L (List (D × W))}
    (hflow : Ensures E flow (fun us s' => us = ts ∧ Trail S s s' ∧
      Noted S s' edge d us) s) (through : W) (origin : D) :
    Ensures E (flow >>= propagateAll S e.source edge.target through origin)
      (fun _ s' => Trail S s s' ∧ Noted S s' edge d ts) s := by
  refine hflow.bind fun us s₁ h => ?_
  obtain ⟨rfl, h₁, hnoted⟩ := h
  have hg₁ := h₁.grows hG.steady
  refine (trail_propagateAll hG (hG.trail hs h₁) (hx.grow hg₁) hnoted
    (hg₁.recorded he) hresumes through origin).mono fun _ s₂ h₂ => ?_
  exact ⟨h₁.trans h₂, hnoted.grow (h₂.grows hG.steady)⟩

-- =========================================================== normal edges

/-- A normal node is followed along each of its successors. What is
noted for one successor stays noted while the others are followed. -/
theorem trail_processNormal (hG : Guards S I₀ Inv E) (hs : Inv s)
    {e : PathEdge D} (hcall : (S.view s.graph).isCall e.node = false)
    (hexit : (S.view s.graph).isExit? e.node = some false) (he : Recorded s e) :
    Ensures E (processNormal S e)
      (fun _ s' => Trail S s s' ∧ ∀ m ∈ (S.view s.graph).successors e.node,
        Noted S s' (.normal e.node m) e.target
          (S.normalTargets e.node m e.target)) s := by
  unfold processNormal
  refine (ensures_jumpFunction_of hG.gap e).bind fun f s₀ h => ?_
  obtain ⟨rfl, _⟩ := h
  refine Ensures.get_bind ?_
  refine Ensures.forM (A := Trail S)
    (G := fun m s' => Noted S s' (.normal e.node m) e.target
      (S.normalTargets e.node m e.target))
    (fun _ => .refl) (fun h h' => h.trans h')
      (fun h hA => h.grow (hA.grows hG.steady)) .refl
    fun m hm s₁ h₁ => ?_
  -- what is known about the node was known before the loop, and the graph only
  -- grows in it
  have hg₁ := h₁.grows hG.steady
  have hcall₁ : (S.view s₁.graph).isCall e.node = false := by
    rw [hg₁.view.isCall]; exact hcall
  have hexit₁ : (S.view s₁.graph).isExit? e.node = some false := by
    rw [hg₁.view.isExit?]
    exact hexit
  have hm₁ : m ∈ (S.view s₁.graph).successors e.node := by
    rw [hg₁.view.successors]; exact hm
  have he₁ := hg₁.recorded he
  have hs₁ := hG.trail hs h₁
  exact trail_carry hG hs₁ (.normal he₁ hcall₁ hexit₁ hm₁) he₁
    (.normal e.node m) (trail_normalFlow hG hs₁ he₁ hcall₁ hexit₁ hm₁) f
    e.target

-- ================================================================== calls

/-- A course that puts the caller `i` on record, and no other.
Summaries and call flows are left alone. -/
structure Entered (S : Setup D W L) (i : Incoming D) (s s' : State D W L) :
    Prop where
  course : Course S s s'
  mem : i ∈ s'.incoming
  incoming : ∀ j ∈ s'.incoming, j ∈ s.incoming ∨ j = i
  summaries : s'.summaries = s.summaries
  callFlows : s'.callFlows = s.callFlows
  known : s'.known = s.known
  bodiless : s'.stats.bodilessCallees = s.stats.bodilessCallees

omit [DecidableEq W] in
/-- A trail before it changes nothing of that, since a trail spares
these tables. -/
theorem Entered.after {i : Incoming D} (h : Entered S i s' s'')
    (h' : Trail S s s') : Entered S i s s'' where
  course := h'.course.trans h.course
  mem := h.mem
  incoming := by
    rw [← h'.spares.incoming]
    exact h.incoming
  summaries := h.summaries.trans h'.spares.summaries
  callFlows := h.callFlows.trans h'.spares.callFlows
  known := h.known.trans h'.spares.known
  bodiless := h.bodiless.trans h'.spares.bodiless

omit [DecidableEq W] in
/-- Once every return to the new caller is noted, all is in order. The
trail `h'` is where the returns are made. -/
theorem Entered.tidy (hsteady : S.IsSteady) {i : Incoming D}
    (h : Entered S i s s') (h' : Trail S s' s'')
    (hnew : ∀ k r, Summarized s k →
      SoleStart (S.view s.graph).start? k.proc i.start → k.entry = i.entry →
      (S.view s.graph).returnSite? i.site = some r →
      Noted S s'' (.ret i.site k.proc k.exit r) k.exitFact
        (S.returnTargets i.site k.proc k.exit r k.exitFact i.callFact)) :
    Tidy S s s'' := by
  have hspares := h'.spares
  have hcourse : Course S s s'' := h.course.trans h'.course
  have hgrows := hcourse.grows hsteady
  have hsum := hspares.summaries.trans h.summaries
  refine ⟨hcourse, fun hbal =>
    hbal.enter hgrows hsum (i := i) ?_ fun k r hk hstart hentry hr => ?_,
    hspares.callFlows.trans h.callFlows, hspares.known.trans h.known,
    hspares.bodiless.trans h.bodiless⟩
  · rw [hspares.incoming]
    exact h.incoming
  · unfold Summarized at hk
    rw [hsum] at hk
    rw [hgrows.view.start?] at hstart
    rw [hgrows.view.returnSite?] at hr
    exact hnew k r hk hstart hentry hr

omit [DecidableEq L] [DecidableEq W] in
/-- A caller is noted in two tables and one counter. A property that
does not depend on these three is kept. -/
theorem ensures_noteEntry_of {P : State D W L → Prop} (i : Incoming D)
    (h : ∀ links incoming incomingEdges,
      P { s with links, incoming, stats := { s.stats with incomingEdges } }) :
    Ensures E (noteEntry S i) (fun _ s' => P s') s := by
  unfold noteEntry
  refine Ensures.optional_bind fun s₁ hs₁ => Ensures.get_bind ?_
  rcases hs₁ with rfl | rfl
  · split
    · exact Ensures.modify (h ..)
    · exact Ensures.pure (h ..)
  · split
    · exact Ensures.modify (h ..)
    · exact Ensures.pure (h ..)

omit [DecidableEq W] in
/-- Noting a caller puts it on record if it is not there yet. The links
may be noted first, which is a move of its own. -/
theorem entered_noteEntry (hsteady : S.IsSteady) {i : Incoming D} {g : Proc}
    {ts : List (D × W)}
    (hx : Crosses S s (.call i.site g i.start) i.callFact ts)
    (hentry : i.entry ∈ ts.map Prod.fst) :
    Ensures E (noteEntry S i) (fun _ s' => Entered S i s s') s := by
  unfold noteEntry
  refine Ensures.optional_bind fun s₁ hs₁ => ?_
  have hmove : Move S s s₁ := by
    rcases hs₁ with h | h
    · rw [h]
      exact .note s s.links s.stats.summaryReuses
    · rw [h]
      exact .note s _ s.stats.summaryReuses
  have hspares := hmove.spares
  refine Ensures.get_bind ?_
  split
  next hnew =>
    have hstride := Stride.enter hnew (hx.grow (hmove.grows hsteady)) hentry
    refine Ensures.modify ⟨.head (.move hmove) (.single hstride),
      List.mem_append_right _ (List.mem_singleton.mpr rfl), fun j hj => ?_,
      hspares.summaries,
      hspares.callFlows, hspares.known, hspares.bodiless⟩
    rw [← hspares.incoming]
    rcases List.mem_append.mp hj with hj | hj
    · exact Or.inl hj
    · exact Or.inr (List.mem_singleton.mp hj)
  next hmem =>
    refine Ensures.pure ⟨.single (.move hmove), Decidable.not_not.mp hmem,
      fun j hj => ?_, hspares.summaries, hspares.callFlows, hspares.known,
      hspares.bodiless⟩
    rw [← hspares.incoming]
    exact Or.inl hj

/-- Summaries that are on record are applied to a caller, and the
returns noted. The loop runs over the summaries from before it; there
are no others after it. -/
theorem trail_applySummaries (hG : Guards S I₀ Inv E) (hs : Inv s)
    {e : PathEdge D} {g : Proc} {start r : Node} {entry : D} (he : Recorded s e)
    (hi : ⟨start, entry, e.node, e.target⟩ ∈ s.incoming)
    (hstart : (S.view s.graph).start? g = some start)
    (hr : (S.view s.graph).returnSite? e.node = some r) (through : W) :
    Ensures E (applySummaries S e g r entry through)
      (fun _ s' => Trail S s s' ∧ ∀ p ∈ s.summariesOf g entry,
        Noted S s' (.ret e.node g p.1.exit r) p.1.exitFact
          (S.returnTargets e.node g p.1.exit r p.1.exitFact e.target)) s := by
  unfold applySummaries
  refine Ensures.get_bind (Ensures.optional_bind fun s₁ hs₁ => ?_)
  have h₁ : Trail S s s₁ := by
    rcases hs₁ with h | h
    · rw [h]
    · rw [h]
      exact .single (.note s s.links _)
  refine (Ensures.forM (A := Trail S) (G := fun (p : SummaryEdge D × W) s' =>
      Noted S s' (.ret e.node g p.1.exit r) p.1.exitFact
        (S.returnTargets e.node g p.1.exit r p.1.exitFact e.target))
    (fun _ => .refl) (fun h h' => h.trans h')
      (fun h hA => h.grow (hA.grows hG.steady)) .refl
    fun p hp s₂ h₂ => ?_).mono fun _ s' h => ⟨h₁.trans h.1, h.2⟩
  obtain ⟨k, v⟩ := p
  obtain ⟨hk, rfl, rfl⟩ := State.mem_summariesOf.mp hp
  -- the summaries were listed before the loop; by now the tables have
  -- grown, and what they held is still there
  have h₀₂ : Trail S s s₂ := h₁.trans h₂
  have hg₂ := h₀₂.grows hG.steady
  have hstart₂ : (S.view s₂.graph).start? k.proc = some start := by
    rw [hg₂.view.start?]
    exact hstart
  have hr₂ : (S.view s₂.graph).returnSite? e.node = some r := by
    rw [hg₂.view.returnSite?]
    exact hr
  have hs₂ := hG.trail hs h₀₂
  have hi₂ := hg₂.incoming hi
  have hk₂ := hg₂.summarized ⟨v, hk⟩
  exact trail_carry hG hs₂ (.ret hi₂ hk₂ hstart₂ rfl hr₂) (hg₂.recorded he)
    (.ret ..) (trail_returnFlow hG hs₂ hi₂ hk₂ hstart₂ rfl hr₂) _ e.target

/-- A callee is entered with a fact: the new caller gets what the
summaries give. The entry is let be reached before the caller is put on
record, and the caller is on record before summaries are applied. -/
theorem tidy_enter (hG : Guards S I₀ Inv E) (hs : Inv s) {e : PathEdge D}
    {g : Proc} {start : Node} (he : Recorded s e)
    (henter : (S.view s.graph).Enters e.node g start)
    (hnoted : Noted S s (.call e.node g start) e.target
      (S.callTargets e.node g start e.target)) (hknown : (e.node, g) ∈ s.known)
    (hflow : s.callFlows.get? e.node (g, e.target) =
      some (S.callTargets e.node g start e.target)) {t : D × W}
    (ht : t ∈ S.callTargets e.node g start e.target) (f : W) :
    Ensures E (enter S e f g start ((S.view s.graph).returnSite? e.node) t)
      (fun _ s' => Tidy S s s' ∧ Recorded s' ⟨t.1, start, t.1⟩) s := by
  obtain ⟨entry, w⟩ := t
  have hx := Crosses.call he henter
  unfold enter
  refine (trail_propagate hG hs (.entry hx hnoted ht hknown hflow) S.identity
    none).bind fun _ s₁ hfirst => ?_
  obtain ⟨h₁, hentry₁⟩ := hfirst
  refine (entered_noteEntry (i := ⟨start, entry, e.node, e.target⟩) hG.steady
    (hx.grow (h₁.grows hG.steady)) (List.mem_map.mpr ⟨_, ht, rfl⟩)).bind
    fun _ s₂ h => ?_
  have h₂ := h.after h₁
  have hg₂ := h₂.course.grows hG.steady
  have hentry₂ := (h.course.grows hG.steady).recorded hentry₁
  cases hret : (S.view s.graph).returnSite? e.node with
  -- a call that does not return has no return to note
  | none =>
    refine Ensures.pure ⟨h₂.tidy hG.steady .refl fun k r _ _ _ hr =>
        ?_, hentry₂⟩
    exact absurd (hret.symm.trans hr) nofun
  | some r =>
    have hstart₂ : (S.view s₂.graph).start? g = some start := by
      rw [hg₂.view.start?]
      exact henter.start
    have hret₂ : (S.view s₂.graph).returnSite? e.node = some r := by
      rw [hg₂.view.returnSite?]
      exact hret
    refine (trail_applySummaries hG (hG.course hs h₂.course) (hg₂.recorded he)
      h₂.mem hstart₂ hret₂ _).mono fun _ s₃ h => ?_
    obtain ⟨h₃, happlied⟩ := h
    refine ⟨h₂.tidy hG.steady h₃ fun k r' hk hstart hentry hr => ?_,
      (h₃.grows hG.steady).recorded hentry₂⟩
    obtain rfl : r = r' := Option.some.inj (hret.symm.trans hr)
    -- no other procedure has this start, so the summary is one of `g`
    have hproc : k.proc = g := (hstart.only henter.start).symm
    obtain ⟨v, hk⟩ := hk
    rw [← h₂.summaries] at hk
    have hnoted₃ :=
      happlied (k, v) (State.mem_summariesOf.mpr ⟨hk, hproc, hentry⟩)
    rw [hproc]
    exact hnoted₃

section Callees

variable {e : PathEdge D} {f : W} {fresh : List Proc}

/-- What one visit of a callee does, and by how much it counts callees
without a body. -/
structure Visited (S : Setup D W L) (s s' : State D W L) (bodiless : Nat) :
    Prop where
  course : Course S s s'
  balanced : Balanced S s → Balanced S s'
  filled : Filled S s → Filled S s'
  known : s'.known = s.known
  bodiless : s'.stats.bodilessCallees = s.stats.bodilessCallees + bodiless

omit [DecidableEq W] in
/-- A callee that is passed over: no body, and counted before. -/
theorem Visited.refl (s : State D W L) : Visited S s s 0 :=
  ⟨.refl, id, id, rfl, rfl⟩

omit [DecidableEq W] in
/-- Once the callee is entered with every fact of its call flow, the
visit is over. The call flow that is new is the only one for which
entries were still owed. -/
theorem Called.visited (hsteady : S.IsSteady) {g : Proc} {start : Node}
    (hstart : (S.view s.graph).start? g = some start)
    (h : Called S e g start s s') (h' : Tidy S s' s'')
    (hentered : ∀ t ∈ S.callTargets e.node g start e.target,
      Recorded s'' ⟨t.1, start, t.1⟩) : Visited S s s'' 0 where
  course := h.course.trans h'.course
  balanced := fun hbal => h'.balanced (h.balanced hbal)
  filled := by
    intro hfilled c g' d ts start' hts hstart' t ht
    have hcourse : Course S s s'' := h.course.trans h'.course
    have hgrows := hcourse.grows hsteady
    rw [h'.callFlows] at hts
    rcases h.others hts with hold | ⟨rfl, hk⟩
    · rw [hgrows.view.start?] at hstart'
      exact hgrows.recorded (hfilled c g' d ts start' hold hstart' t ht)
    · obtain ⟨rfl, rfl⟩ := Prod.mk.injEq .. ▸ hk
      obtain rfl := Option.some.inj (h.callFlow.symm.trans hts)
      rw [hgrows.view.start?] at hstart'
      obtain rfl := Option.some.inj (hstart.symm.trans hstart')
      exact hentered t ht
  known := h'.known.trans h.known
  bodiless := h'.bodiless.trans h.bodiless

/-- One visit of a callee. A callee without a body is counted the first
time; any other is entered with each fact of its call flow. -/
theorem visited_visitCallee (hG : Guards S I₀ Inv E) (hs : Inv s)
    (he : Recorded s e) (hcall : (S.view s.graph).isCall e.node = true)
    {g : Proc} (hg : g ∈ (S.view s.graph).callees e.node)
    (hknown : (e.node, g) ∈ s.known) :
    Ensures E (visitCallee S e f ((S.view s.graph).returnSite? e.node) fresh g)
      (fun _ s' => Visited S s s'
        (if (S.view s.graph).start? g = none ∧ g ∈ fresh then 1 else 0)) s := by
  unfold visitCallee
  refine Ensures.get_bind ?_
  cases hstart : (S.view s.graph).start? g with
  | none =>
    dsimp only
    split
    next hfresh =>
      have hstride := Stride.bodiless (S := S) s
      have hgrows := hstride.grows hG.steady
      refine Ensures.modify ⟨.single hstride, fun hbal => ?_,
          fun h => h.grow hgrows rfl, rfl, ?_⟩
      · exact fun i k r hi hk h hentry hr =>
          (hbal i k r hi hk h hentry hr).grow hgrows
      · rw [if_pos ⟨rfl, hfresh⟩]
    next hknown =>
      rw [if_neg fun h => hknown h.2]
      exact Ensures.pure (.refl s)
  | some start =>
    -- a callee with a body is not counted, fresh or not
    have hbody : ¬(some start = none ∧ g ∈ fresh) := fun h => nomatch h.1
    rw [if_neg hbody]
    have henter : (S.view s.graph).Enters e.node g start := ⟨hcall, hg, hstart⟩
    refine (called_callFlow hG hs he henter).bind fun ts s₁ h => ?_
    obtain ⟨rfl, h₁⟩ := h
    refine (Ensures.forM (A := Tidy S)
      (G := fun (t : D × W) s' => Recorded s' ⟨t.1, start, t.1⟩)
      (fun _ => .refl _) (fun h h' => h.trans h')
      (fun h hA => (hA.course.grows hG.steady).recorded h) (.refl s₁)
        fun t ht s₂ h₂ => ?_).mono
      fun _ s₃ h => h₁.visited hG.steady hstart h.1 h.2
    have hg₁₂ := h₂.course.grows hG.steady
    have h₀₂ : Course S s s₂ := h₁.course.trans h₂.course
    have hg₂ := h₀₂.grows hG.steady
    rw [← hg₂.view.returnSite?]
    exact tidy_enter hG (hG.course hs h₀₂) (hg₂.recorded he)
      (hg₂.view.enters henter) (h₁.noted.grow hg₁₂) (hg₂.known hknown)
      (hg₁₂.callFlow h₁.callFlow) ht f

/-- The callees without a body that a call site meets for the first
time. `fresh` lists those that it had not met before. -/
def freshBodiless (I : Icfg) (fresh callees : List Proc) : List Proc :=
  callees.filter fun g => decide (I.start? g = none ∧ g ∈ fresh)

/-- One callee after the other. The counts of the single visits add up
to the number of callees without a body that are fresh. -/
theorem visited_visitCallees (hG : Guards S I₀ Inv E) (hs : Inv s)
    (he : Recorded s e) (hcall : (S.view s.graph).isCall e.node = true)
    {callees : List Proc}
    (hcallees : ∀ g ∈ callees, g ∈ (S.view s.graph).callees e.node ∧
      (e.node, g) ∈ s.known) :
    Ensures E (callees.forM
      (visitCallee S e f ((S.view s.graph).returnSite? e.node) fresh))
      (fun _ s' => Visited S s s'
        (freshBodiless (S.view s.graph) fresh callees).length) s := by
  induction callees generalizing s with
  | nil => exact Ensures.pure (.refl s)
  | cons g callees ih =>
    obtain ⟨hg, hknown⟩ := hcallees g List.mem_cons_self
    refine (visited_visitCallee hG hs he hcall hg hknown).bind fun _ s₁ h₁ => ?_
    have hg₁ := h₁.course.grows hG.steady
    have hrest := ih (hG.course hs h₁.course) (hg₁.recorded he)
      (by rw [hg₁.view.isCall]; exact hcall)
      fun g' hg' => by
        obtain ⟨hcallee, hknown'⟩ := hcallees g' (List.mem_cons_of_mem _ hg')
        exact ⟨hg₁.view.callees hcallee, hg₁.known hknown'⟩
    rw [hg₁.view.returnSite?] at hrest
    refine hrest.mono fun _ s₂ h₂ => ⟨h₁.course.trans h₂.course,
      fun hbal => h₂.balanced (h₁.balanced hbal),
      fun h => h₂.filled (h₁.filled h),
      h₂.known.trans h₁.known, ?_⟩
    rw [h₂.bodiless, h₁.bodiless]
    unfold freshBodiless
    rw [hg₁.view.start?, List.filter_cons, Nat.add_assoc]
    congr 1
    split
    next h => simp [h, Nat.add_comm]
    next h => simp [h]

end Callees

-- ================================================= following a path edge

/-- The callees that a node has, if it is a call. At any other node the
graph may list some, but the solver does not look at them. -/
def calleesAt (I : Icfg) (n : Node) : List Proc :=
  if I.isCall n then I.callees n else []

/-- The flows out of a path edge inside its procedure are noted: those
along normal edges, and the one past a call. -/
structure NotedAt (S : Setup D W L) (s : State D W L) (e : PathEdge D) :
    Prop where
  normal : (S.view s.graph).isCall e.node = false →
    (S.view s.graph).isExit? e.node = some false →
    ∀ m ∈ (S.view s.graph).successors e.node,
    Noted S s (.normal e.node m) e.target (S.normalTargets e.node m e.target)
  pass : (S.view s.graph).isCall e.node = true →
    ∀ r, (S.view s.graph).returnSite? e.node = some r →
    Noted S s (.callToReturn e.node r) e.target
    (S.passTargets e.node r e.target)

omit [DecidableEq L] [DecidableEq W] in
/-- They stay noted when tables grow, because the graph may not change
its mind about a node. -/
theorem NotedAt.grow (hs : Grows S s s') {e : PathEdge D} (h : NotedAt S s e) :
    NotedAt S s' e where
  normal := by
    intro hcall hexit m hm
    rw [hs.view.isCall] at hcall
    rw [hs.view.isExit?] at hexit
    rw [hs.view.successors] at hm
    exact (h.normal hcall hexit m hm).grow hs
  pass := by
    intro hcall r hr
    rw [hs.view.isCall] at hcall
    rw [hs.view.returnSite?] at hr
    exact (h.pass hcall r hr).grow hs

/-- What following a path edge does: strides, with every flow out of
the edge noted, and with the callees of its node met and counted. The
last two fields say exactly which callees these are. -/
structure Processed (S : Setup D W L) (e : PathEdge D) (s s' : State D W L) :
    Prop where
  course : Course S s s'
  balanced : Balanced S s → Balanced S s'
  filled : Filled S s → Filled S s'
  noted : NotedAt S s' e
  known : s'.known =
    Listing.addAll s.known ((calleesAt (S.view s.graph) e.node).map fun g =>
      (e.node, g))
  bodiless : s'.stats.bodilessCallees = s.stats.bodilessCallees +
    ((calleesAt (S.view s.graph) e.node).filter fun g =>
      decide ((S.view s.graph).start? g = none ∧ (e.node, g) ∉ s.known)).length

omit [DecidableEq W] in
/-- A node that is no call meets no callees, so there it is enough that
the course is tidy and the flows out of the node are noted. -/
theorem Tidy.processed (hsteady : S.IsSteady) (h : Tidy S s s') {e : PathEdge D}
    (hcall : (S.view s.graph).isCall e.node = false) (hnoted : NotedAt S s' e) :
    Processed S e s s' := by
  have hcallees : calleesAt (S.view s.graph) e.node = [] := by
    unfold calleesAt
    rw [hcall]
    rfl
  refine ⟨h.course, h.balanced,
    fun hs => hs.grow (h.course.grows hsteady) h.callFlows, hnoted, ?_, ?_⟩
  · rw [hcallees]
    exact h.known
  · rw [hcallees]
    exact h.bodiless

omit [DecidableEq W] in
/-- A call is processed once its callees were met and visited and the
flow past them is noted. Meeting them comes first, so a callee is fresh
if it was not known before that. -/
theorem Visited.processed (hsteady : S.IsSteady) {e : PathEdge D}
    (he : Recorded s e) (hcall : (S.view s.graph).isCall e.node = true)
    (h : Visited S (acquaint s e.node ((S.view s.graph).callees e.node)) s'
      (freshBodiless (S.view s.graph)
        (((S.view s.graph).callees e.node).filter fun g =>
          decide ((e.node, g) ∉ s.known))
        ((S.view s.graph).callees e.node)).length)
    (h' : Trail S s' s'')
    (hpast : ∀ r, (S.view s.graph).returnSite? e.node = some r →
      Noted S s'' (.callToReturn e.node r) e.target
        (S.passTargets e.node r e.target)) : Processed S e s s'' := by
  have hmet : Stride S s
    (acquaint s e.node ((S.view s.graph).callees e.node)) :=
    .acquaint he hcall
  have hcourse : Course S s s'' := .head hmet (h.course.trans h'.course)
  have hgrows := hcourse.grows hsteady
  have hcallees : calleesAt (S.view s.graph) e.node =
      (S.view s.graph).callees e.node := by
    unfold calleesAt
    rw [if_pos hcall]
  refine ⟨hcourse, fun hbal => ?_, fun hfilled => ?_,
      ⟨fun hno => ?_, fun _ r hr => ?_⟩, ?_, ?_⟩
  · refine (h.balanced fun i k r hi hk hstart hentry hr => ?_).trail hsteady h'
    exact (hbal i k r hi hk hstart hentry hr).grow (hmet.grows hsteady)
  · exact (h.filled (hfilled.grow (hmet.grows hsteady) rfl)).grow
      (h'.grows hsteady) h'.spares.callFlows
  · rw [hgrows.view.isCall, hcall] at hno
    exact absurd hno nofun
  · rw [hgrows.view.returnSite?] at hr
    exact hpast r hr
  · rw [hcallees, h'.spares.known]
    exact h.known
  · rw [hcallees, h'.spares.bodiless, h.bodiless]
    show s.stats.bodilessCallees + _ = _
    congr 2
    -- every callee of the site is among those visited, so being fresh
    -- is not having been known
    refine List.filter_congr fun g hg => decide_eq_decide.mpr ?_
    simp only [List.mem_filter, decide_eq_true_eq]
    exact ⟨fun h => ⟨h.1, h.2.2⟩, fun h => ⟨h.1, hg, h.2⟩⟩

/-- Following a path edge at a call: the callees are met, then visited,
and then the flow past the call is carried to the return site, if there
is one. -/
theorem processed_processCall (hG : Guards S I₀ Inv E) (hs : Inv s)
    {e : PathEdge D} (he : Recorded s e)
    (hcall : (S.view s.graph).isCall e.node = true) :
    Ensures E (processCall S e) (fun _ s' => Processed S e s s') s := by
  unfold processCall
  refine (ensures_jumpFunction_of hG.gap e).bind fun f s₀ h => ?_
  obtain ⟨rfl, _⟩ := h
  refine Ensures.get_bind (Ensures.get_bind (Ensures.modify_bind ?_))
  have hmet : Stride S s₀
    (acquaint s₀ e.node ((S.view s₀.graph).callees e.node)) :=
    .acquaint he hcall
  refine (visited_visitCallees
    (s := acquaint s₀ e.node ((S.view s₀.graph).callees e.node)) hG
    (hG.stride hs hmet) ((hmet.grows hG.steady).recorded he) hcall fun g hg =>
    ⟨hg, ?_⟩).bind fun _ s₂ h₂ => ?_
  · exact mem_known_acquaint.mpr (Or.inr ⟨rfl, hg⟩)
  -- after the visits the call is still a call, with the same return site
  have h₀₂ : Course S s₀ s₂ := .head hmet h₂.course
  have hg₂ := h₀₂.grows hG.steady
  cases hret : (S.view s₀.graph).returnSite? e.node with
  | none =>
    refine Ensures.pure (h₂.processed hG.steady he hcall .refl fun r hr => ?_)
    exact absurd (hret.symm.trans hr) nofun
  | some r =>
    have hcall₂ : (S.view s₂.graph).isCall e.node = true := by
      rw [hg₂.view.isCall]
      exact hcall
    have hret₂ : (S.view s₂.graph).returnSite? e.node = some r := by
      rw [hg₂.view.returnSite?]
      exact hret
    have hs₂ := hG.course hs h₀₂
    have hx := Crosses.pass (hg₂.recorded he) hcall₂ hret₂
    have hfault : ∀ fault, S.problem.flow (.callToReturn e.node r) e.target =
        .error fault → E (.fault fault) := fun _ h =>
      hG.fault hs (.flow (.callToReturn e.node r) he rfl nofun h)
    refine (trail_carry hG hs₂ hx (hg₂.recorded he) (.pass e.node r)
      (trail_evaluate hG hs₂ hx hfault) f e.target).mono fun _ s₃ h =>
        h₂.processed hG.steady he hcall h.1 fun r' hr' => ?_
    obtain rfl : r = r' := Option.some.inj (hret.symm.trans hr')
    exact h.2

-- ================================================================== exits

/-- A summary is carried back to one caller. The flow is evaluated
once, and each of its targets goes to every path edge that ends at the
call with the fact there. -/
theorem trail_returnTo (hG : Guards S I₀ Inv E) (hs : Inv s) {x : PathEdge D}
    {g : Proc} {i : Incoming D}
    (hk : Summarized s ⟨g, x.source, x.node, x.target⟩) (hi : i ∈ s.incoming)
    (hstart : (S.view s.graph).start? g = some i.start)
    (hentry : x.source = i.entry) (h : W) :
    Ensures E (returnTo S x h g i)
      (fun _ s' => Trail S s s' ∧ ∀ r, (S.view s.graph).returnSite? i.site =
        some r → Noted S s' (.ret i.site g x.node r) x.target
          (S.returnTargets i.site g x.node r x.target i.callFact)) s := by
  unfold returnTo
  refine Ensures.get_bind ?_
  cases hret : (S.view s.graph).returnSite? i.site with
  | none => exact Ensures.pure ⟨.refl, nofun⟩
  | some r =>
    refine (ensures_entryFunction_of hG.gap i.site g i.callFact i.entry).bind
      fun w s₀ hs₀ => ?_
    subst hs₀
    refine (trail_returnFlow hG hs hi hk hstart hentry hret).bind
      fun us s₁ hus => ?_
    obtain ⟨rfl, h₁, hnoted⟩ := hus
    have hx := (Crosses.ret hi hk hstart hentry hret).grow (h₁.grows hG.steady)
    have hs₁ := hG.trail hs h₁
    refine Ensures.get_bind ?_
    -- every target is carried to every caller
    refine (Ensures.forM (A := Trail S) (G := fun _ _ => True) (fun _ => .refl)
      (fun h h' => h.trans h') (fun _ _ => trivial) .refl fun u hu s₂ h₂ =>
      ?_).mono fun _ s₃ hloop => ⟨h₁.trans hloop.1, fun r' hr' => ?_⟩
    · refine (Ensures.forM (A := Trail S) (G := fun _ _ => True)
        (fun _ => .refl) (fun h h' => h.trans h') (fun _ _ => trivial) .refl
        fun p hp s₃ h₃ => ?_).mono fun _ _ hloop => ⟨hloop.1, trivial⟩
      have h₁₃ : Trail S s₁ s₃ := h₂.trans h₃
      have hg₃ := h₁₃.grows hG.steady
      have hcaller : Recorded s₁ ⟨p.1, i.site, i.callFact⟩ :=
        ⟨p.2, State.mem_sourcesOf.mp hp⟩
      have harises := Arises.within (hx.grow hg₃) (hnoted.grow hg₃) hu
        (hg₃.recorded hcaller) (.ret ..)
      exact (trail_propagate hG (hG.trail hs₁ h₁₃) harises _ _).mono
        fun _ _ h => ⟨h.1, trivial⟩
    · obtain rfl : r = r' := Option.some.inj hr'
      exact hnoted.grow (Trail.grows hG.steady hloop.1)

/-- Following a path edge at an exit: the summary is put on record, and
then carried to everybody who entered with its entry fact. An exit of a
procedure without a start is a gap. -/
theorem tidy_processExit (hG : Guards S I₀ Inv E) (hs : Inv s) {x : PathEdge D}
    (hx : Recorded s x) (hcall : (S.view s.graph).isCall x.node = false)
    (hexit : (S.view s.graph).isExit? x.node = some true) :
    Ensures E (processExit S x) (fun _ s' => Tidy S s s') s := by
  unfold processExit
  refine (ensures_jumpFunction_of hG.gap x).bind fun h s₀ hfound => ?_
  obtain ⟨rfl, hh⟩ := hfound
  refine Ensures.get_bind
    ((ensures_askOf_of fun hnone => hG.fault hs (.owner hx hnone)).bind
    fun g s₁ hg => ?_)
  obtain ⟨rfl, hg⟩ := hg
  have hleave : (S.view s₁.graph).Leaves x.node g := ⟨hcall, hexit, hg⟩
  cases hstart : (S.view s₁.graph).start? g with
  | none => exact Ensures.throw (hG.gap _)
  | some start =>
    refine Ensures.modify_bind (Ensures.get_bind ?_)
    have hstride : Stride S s₁
        { s₁ with
          summaries :=
            s₁.summaries.insert ⟨g, x.source, x.node, x.target⟩ h } :=
      .summarize hh hleave
    have hs₂ := hG.stride hs hstride
    have hg₂ := hstride.grows hG.steady
    have hkey : Summarized
        { s₁ with
          summaries := s₁.summaries.insert ⟨g, x.source, x.node, x.target⟩ h }
        ⟨g, x.source, x.node, x.target⟩ := ⟨h, Table.get?_insert_self ..⟩
    refine (Ensures.forM (A := Trail S) (G := fun (i : Incoming D) s' => ∀ r,
        (S.view s₁.graph).returnSite? i.site = some r →
        Noted S s' (.ret i.site g x.node r) x.target
          (S.returnTargets i.site g x.node r x.target i.callFact))
            (fun _ => .refl)
      (fun h h' => h.trans h')
        (fun hG' hA r hr => (hG' r hr).grow (hA.grows hG.steady)) .refl
      fun i hi s₃ h₃ => ?_).mono fun _ s₄ hloop => ?_
    · obtain ⟨hinc, rfl, hentry⟩ := State.mem_callersOf.mp hi
      have hg₃ := h₃.grows hG.steady
      have hstart₃ : (S.view s₃.graph).start? g = some i.start := by
        rw [hg₃.view.start?]
        exact hstart
      refine (trail_returnTo hG (hG.trail hs₂ h₃) (hg₃.summarized hkey)
        (hg₃.incoming hinc) hstart₃ hentry.symm h).mono fun _ s₅ hback =>
        ⟨hback.1, fun r hr => hback.2 r ?_⟩
      rw [hg₃.view.returnSite?]
      exact hr
    · obtain ⟨h₄, hback⟩ := hloop
      have hspares := h₄.spares
      have h₀₄ : Course S s₁ s₄ := .head hstride h₄.course
      refine ⟨h₀₄, fun hbal =>
        hbal.summarize (h₀₄.grows hG.steady) hspares.incoming hspares.summaries
        fun i r hi hstart' hentry hr => ?_, hspares.callFlows, hspares.known,
        hspares.bodiless⟩
      -- everybody who entered was returned to
      obtain rfl : start = i.start :=
        Option.some.inj (hstart.symm.trans hstart')
      exact hback i (State.mem_callersOf.mpr ⟨hi, rfl, hentry.symm⟩) r hr

/-- Following any path edge. This is the step lemma of the worklist
loop: it is all that `Solver/Turns` and the modules above it know about
the computations. -/
theorem processed_process (hG : Guards S I₀ Inv E) (hs : Inv s) {e : PathEdge D}
    (he : Recorded s e) :
    Ensures E (process S e) (fun _ s' => Processed S e s s') s := by
  unfold process
  refine Ensures.get_bind ?_
  cases hcall : (S.view s.graph).isCall e.node with
  | true =>
    rw [if_pos rfl]
    exact processed_processCall hG hs he hcall
  | false =>
    rw [if_neg Bool.false_ne_true]
    refine (ensures_askOf_of fun hnone => hG.fault hs (.exit he hnone)).bind
      fun isExit s₁ h => ?_
    obtain ⟨rfl, hexit⟩ := h
    cases isExit with
    | true =>
      refine (tidy_processExit hG hs he hcall hexit).mono fun _ s₂ h =>
        h.processed hG.steady hcall ?_
      have hg₂ := h.course.grows hG.steady
      refine ⟨fun _ hno => ?_, fun hyes => ?_⟩
      · rw [hg₂.view.isExit?, hexit] at hno
        exact absurd hno nofun
      · rw [hg₂.view.isCall, hcall] at hyes
        exact absurd hyes nofun
    | false =>
      refine (trail_processNormal hG hs hcall hexit he).mono fun _ s₂ h =>
        (h.1.tidy hG.steady).processed hG.steady hcall ?_
      have hg₂ := h.1.grows hG.steady
      refine ⟨fun _ _ m hm => h.2 m ?_, fun hyes => ?_⟩
      · rw [← hg₂.view.successors]
        exact hm
      · rw [hg₂.view.isCall, hcall] at hyes
        exact absurd hyes nofun

end Tabulation.Solver
