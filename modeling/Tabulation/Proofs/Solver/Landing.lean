/-
What is recorded leads somewhere.

An exploded edge is recorded when a flow function is evaluated, and
what it leads to is reached only afterwards. In between there may be a
cache, the callers of an exit, or a list of summaries. But a path edge
is followed to the end: once that is done, every exploded edge that is
new ends in a fact that is reached (`Lands`).

A flow that is evaluated opens exploded edges (`Opens`), and letting
its targets be reached lands them. A return lands because whoever is on
record as a caller is so for a path edge at the call.

Failures do not matter here, and neither does the graph.
-/
import Tabulation.Proofs.Solver.Turns

namespace Tabulation.Solver

variable {D W L : Type} [DecidableEq D]
variable {S : Setup D W L} {s s' s'' : State D W L}

-- ============================================================= vocabulary

/-- A path edge ends in the fact at the node, from whatever source. -/
def Reached (s : State D W L) (n : Node) (d : D) : Prop :=
  ∃ source, Recorded s ⟨source, n, d⟩

/-- Path edges stay, and exploded edges that are new lead to facts that
are reached. It holds between the tables before a computation and those
after it. -/
structure Lands (s s' : State D W L) : Prop where
  recorded : ∀ {e}, Recorded s e → Recorded s' e
  exploded : ∀ {x}, x ∈ s'.exploded → x ∈ s.exploded ∨
    Reached s' x.target x.targetFact

/-- Path edges stay, and exploded edges that are new are those of a
flow. Their targets have not been reached yet. -/
structure Opens (edge : FlowEdge) (d : D) (ts : List (D × W))
    (s s' : State D W L) : Prop where
  recorded : ∀ {e}, Recorded s e → Recorded s' e
  exploded : ∀ {x}, x ∈ s'.exploded →
    x ∈ s.exploded ∨ ∃ t ∈ ts, x = ExplodedEdge.along edge d t.1

theorem Reached.lands {n : Node} {d : D} (h : Reached s n d) (h' : Lands s s') :
    Reached s' n d := by
  obtain ⟨source, he⟩ := h
  exact ⟨source, h'.recorded he⟩

/-- What is kept beside may change: only path edges and exploded edges
are looked at. -/
theorem Lands.aside (hjumps : s'.jumps = s.jumps)
    (hexploded : s'.exploded = s.exploded) : Lands s s' where
  recorded := by
    unfold Recorded State.jump?
    rw [hjumps]
    exact id
  exploded := by
    rw [hexploded]
    exact Or.inl

theorem Lands.refl (s : State D W L) : Lands s s := .aside rfl rfl

/-- One computation that lands after another. -/
theorem Lands.trans (h : Lands s s') (h' : Lands s' s'') : Lands s s'' where
  recorded := fun he => h'.recorded (h.recorded he)
  exploded := by
    intro x hx
    rcases h'.exploded hx with hx | hx
    · rcases h.exploded hx with hx | hx
      · exact Or.inl hx
      · exact Or.inr (hx.lands h')
    · exact Or.inr hx

theorem Lands.after (h : Lands s' s'') (hjumps : s'.jumps = s.jumps)
    (hexploded : s'.exploded = s.exploded) : Lands s s'' :=
  .trans (.aside hjumps hexploded) h

/-- A loop whose turns land: what one turn has opened is reached before
the next one begins. -/
theorem lands_each {β : Type} {f : β → SolverM D W L PUnit} {l : List β}
    (hstep : ∀ x ∈ l, ∀ s', Lands s s' →
      Ensures (fun _ => True) (f x) (fun _ s'' => Lands s' s'') s') :
    Ensures (fun _ => True) (l.forM f) (fun _ s' => Lands s s') s :=
  Ensures.forM_keep (.refl s) fun x hx s' h =>
    (hstep x hx s' h).mono fun _ _ h' => h.trans h'

/-- The same, with something for each member that later tables keep. -/
theorem lands_forM {β : Type} {f : β → SolverM D W L PUnit}
    {G : β → State D W L → Prop} {l : List β}
    (hkeep : ∀ {x a b}, G x a → Lands a b → G x b)
    (hstep : ∀ x ∈ l, ∀ s', Lands s s' →
      Ensures (fun _ => True) (f x) (fun _ s'' => Lands s' s'' ∧ G x s'') s') :
    Ensures (fun _ => True) (l.forM f)
      (fun _ s' => Lands s s' ∧ ∀ x ∈ l, G x s') s :=
  Ensures.forM (A := Lands) (G := G) (fun _ => .refl _) .trans hkeep
    (.refl s) hstep

/-- What is opened lands once its targets are reached. The targets are
all that the exploded edge could be waiting for. -/
theorem Opens.lands {edge : FlowEdge} {d : D} {ts : List (D × W)}
    (h : Opens edge d ts s s') (h' : Lands s' s'')
    (hall : ∀ t ∈ ts, Reached s'' edge.target t.1) : Lands s s'' where
  recorded := fun he => h'.recorded (h.recorded he)
  exploded := by
    intro x hx
    rcases h'.exploded hx with hx | hx
    · rcases h.exploded hx with hx | ⟨t, ht, rfl⟩
      · exact Or.inl hx
      · exact Or.inr (hall t ht)
    · exact Or.inr hx

-- ================================================================== flows

/-- Recording the edges of a flow is where exploded edges come from. If
they are not to be recorded, nothing is opened. -/
theorem opens_accept (edge : FlowEdge) (d : D) (answer : List (D × W)) :
    Ensures (fun _ => True) (accept S edge d answer)
      (fun ts s' => Opens edge d ts s s') s := by
  unfold accept
  refine Ensures.modify_bind ?_
  split
  · refine Ensures.modify_bind (Ensures.pure ⟨id, fun {x} hx => ?_⟩)
    rcases List.mem_append.mp hx with hx | hx
    · obtain ⟨t, ht, rfl⟩ := List.mem_map.mp (List.mem_reverse.mp hx)
      exact Or.inr ⟨t, ht, rfl⟩
    · exact Or.inl hx
  · exact Ensures.pure ⟨id, Or.inl⟩

/-- Requests record nothing, so what is opened comes of the answer
alone. -/
theorem opens_evaluate (edge : FlowEdge) (d : D)
    (answer : Except Fault (List (D × W))) :
    Ensures (fun _ => True) (evaluate S edge d answer)
      (fun ts s' => Opens edge d ts s s') s := by
  unfold evaluate
  refine Ensures.modify_bind ?_
  refine (ensures_ask_of (s := served S s edge d) fun _ _ => trivial).bind
    fun a s₁ h => ?_
  obtain ⟨rfl, _⟩ := h
  rw [served_eq]
  exact (opens_accept edge d a).mono fun ts s₂ h => ⟨h.recorded, h.exploded⟩

theorem opens_normalFlow (node succ : Node) (d : D) :
    Ensures (fun _ => True) (normalFlow S node succ d)
      (fun ts s' => Opens (.normal node succ) d ts s s') s := by
  unfold normalFlow
  refine (ensures_ask_of fun _ _ => trivial).bind fun isIdentity s₁ h => ?_
  obtain ⟨rfl, _⟩ := h
  cases isIdentity with
  | true => exact opens_accept _ d _
  | false => exact opens_evaluate _ d _

/-- A call flow that is on record opens nothing. It was recorded when
it was first evaluated. -/
theorem opens_callFlow (site : Node) (callee : Proc) (start : Node) (d : D) :
    Ensures (fun _ => True) (callFlow S site callee start d)
      (fun ts s' => Opens (.call site callee start) d ts s s') s := by
  unfold callFlow
  refine Ensures.get_bind ?_
  split
  · exact Ensures.pure ⟨id, Or.inl⟩
  · refine (opens_evaluate _ d _).bind fun ts s₁ h => ?_
    exact Ensures.modify_bind (Ensures.pure ⟨h.recorded, h.exploded⟩)

-- ============================================================ propagation

variable [DecidableEq W] [DecidableEq L]

/-- A path edge that is let be reached is on record afterwards, whether
or not it was before. -/
theorem lands_propagate (e : PathEdge D) (w : W) (origin : Option D) :
    Ensures (fun _ => True) (propagate S e w origin)
      (fun _ s' => Lands s s' ∧ Recorded s' e) s := by
  refine (ensures_propagate_of origin fun _ _ _ _ => trivial).mono
    fun _ s' h => ?_
  rcases h with ⟨_, rfl⟩ | ⟨links, he, rfl⟩ | ⟨f, _, _, _, rfl⟩
  · exact ⟨⟨fun he => recorded_queued_iff.mpr (Or.inl he), Or.inl⟩,
        recorded_queued ..⟩
  · exact ⟨.aside rfl rfl, he⟩
  · exact ⟨⟨fun he => recorded_queued_iff.mpr (Or.inl he), Or.inl⟩,
        recorded_queued ..⟩

/-- So every target of a flow is reached, whether its path edge is new
or not. -/
theorem lands_propagateAll (source : D) (node : Node) (through : W) (origin : D)
    (ts : List (D × W)) :
    Ensures (fun _ => True) (propagateAll S source node through origin ts)
      (fun _ s' => Lands s s' ∧ ∀ t ∈ ts, Reached s' node t.1) s := by
  unfold propagateAll
  refine lands_forM (fun h h' => h.lands h') fun t _ s₁ _ => ?_
  exact (lands_propagate _ _ _).mono fun _ s₂ h => ⟨h.1, source, h.2⟩

/-- A flow is evaluated, and its targets are let be reached. -/
theorem lands_carry {edge : FlowEdge} {d : D}
    {flow : SolverM D W L (List (D × W))}
    (hflow : Ensures (fun _ => True) flow (fun ts s' => Opens edge d ts s s') s)
    (source : D) (through : W) (origin : D) :
    Ensures (fun _ => True)
      (flow >>= propagateAll S source edge.target through origin)
      (fun _ s' => Lands s s') s := by
  refine hflow.bind fun ts s₁ h₁ => ?_
  exact (lands_propagateAll source edge.target through origin ts).mono
    fun _ s₂ h₂ =>
    h₁.lands h₂.1 h₂.2

-- ================================================= following a path edge

theorem lands_processNormal (e : PathEdge D) :
    Ensures (fun _ => True) (processNormal S e) (fun _ s' => Lands s s') s := by
  unfold processNormal
  refine (ensures_jumpFunction_of (fun _ => trivial) e).bind fun w s₁ h => ?_
  obtain ⟨rfl, _⟩ := h
  refine Ensures.get_bind ?_
  exact lands_each fun m _ s₂ _ =>
    lands_carry (opens_normalFlow e.node m e.target) e.source w e.target

/-- Every return from a summary lands at the return site of the caller
that is followed. -/
theorem lands_applySummaries (e : PathEdge D) (callee : Proc) (r : Node)
    (entry : D) (through : W) :
    Ensures (fun _ => True) (applySummaries S e callee r entry through)
      (fun _ s' => Lands s s') s := by
  unfold applySummaries
  refine Ensures.get_bind ?_
  dsimp only
  refine Ensures.optional_bind fun s₁ h₁ => ?_
  have hs₁ : Lands s s₁ := by
    rcases h₁ with rfl | rfl
    · exact .refl _
    · exact .aside rfl rfl
  refine (lands_each fun k _ s₂ _ => ?_).mono fun _ _ h => hs₁.trans h
  exact lands_carry (opens_evaluate (.ret e.node callee k.1.exit r) k.1.exitFact
    _) e.source (S.comp through k.2) e.target

omit [DecidableEq W] [DecidableEq L] in
theorem lands_noteEntry (i : Incoming D) :
    Ensures (fun _ => True) (noteEntry S i) (fun _ s' => Lands s s') s :=
  ensures_noteEntry_of i fun _ _ _ => .aside rfl rfl

/-- The entry of the callee is reached before anything else happens, so
the edge into it lands. -/
theorem lands_enter (e : PathEdge D) (jump : W) (callee : Proc) (start : Node)
    (r? : Option Node) (t : D × W) :
    Ensures (fun _ => True) (enter S e jump callee start r? t)
      (fun _ s' => Lands s s' ∧ Reached s' start t.1) s := by
  unfold enter
  refine (lands_propagate _ _ _).bind fun _ s₁ h₁ => ?_
  refine (lands_noteEntry _).bind fun _ s₂ h₂ => ?_
  have hs₂ : Lands s s₂ ∧ Reached s₂ start t.1 :=
    ⟨h₁.1.trans h₂, t.1, h₂.recorded h₁.2⟩
  split
  · exact (lands_applySummaries e callee _ t.1 _).mono fun _ _ h =>
      ⟨hs₂.1.trans h, hs₂.2.lands h⟩
  · exact Ensures.pure hs₂

/-- A call flow may have been on record. Then nothing was opened, and
nothing has to land. -/
theorem lands_visitCallee (e : PathEdge D) (jump : W) (r? : Option Node)
    (fresh : List Proc) (callee : Proc) :
    Ensures (fun _ => True) (visitCallee S e jump r? fresh callee)
      (fun _ s' => Lands s s') s := by
  unfold visitCallee
  refine Ensures.get_bind ?_
  dsimp only
  split
  · split
    · exact Ensures.modify (.aside rfl rfl)
    · exact Ensures.pure (.refl s)
  next start _ =>
    refine (opens_callFlow e.node callee start e.target).bind fun ts s₁ h₁ => ?_
    refine (lands_forM (fun h h' => h.lands h') fun t _ s₂ _ =>
      lands_enter e jump callee start r? t).mono fun _ s₂ h₂ => ?_
    exact h₁.lands h₂.1 h₂.2

theorem lands_processCall (e : PathEdge D) :
    Ensures (fun _ => True) (processCall S e) (fun _ s' => Lands s s') s := by
  unfold processCall
  refine (ensures_jumpFunction_of (fun _ => trivial) e).bind fun w s₁ h => ?_
  obtain ⟨rfl, _⟩ := h
  refine Ensures.get_bind (Ensures.get_bind (Ensures.modify_bind ?_))
  refine (lands_each fun callee _ s₂ _ => lands_visitCallee e w _ _ callee).bind
    fun _ s₂ h₂ => ?_
  have hs₂ : Lands s₁ s₂ := h₂.after rfl rfl
  split
  next r _ =>
    exact (lands_carry (opens_evaluate (.callToReturn e.node r) e.target _)
      e.source w e.target).mono fun _ _ h => hs₂.trans h
  · exact Ensures.pure hs₂

/-- A return lands if the fact at the call is reached, since then there
is somebody to return to. -/
theorem lands_returnTo (e : PathEdge D) (summary : W) (callee : Proc)
    {i : Incoming D} (hcaller : Reached s i.site i.callFact) :
    Ensures (fun _ => True) (returnTo S e summary callee i)
      (fun _ s' => Lands s s') s := by
  unfold returnTo
  refine Ensures.get_bind ?_
  dsimp only
  split
  · exact Ensures.pure (.refl s)
  next r _ =>
    refine (ensures_entryFunction_of (fun _ => trivial) i.site callee i.callFact
      i.entry).bind fun w s₁ h => ?_
    subst h
    refine (opens_evaluate (.ret i.site callee e.node r) e.target _).bind
      fun ts s₂ h₂ => ?_
    refine Ensures.get_bind ?_
    refine (lands_forM (G := fun (t : D × W) s' => Reached s' r t.1)
      (fun h h' => h.lands h') fun t _ s₃ _ => ?_).mono fun _ s₃ h₃ =>
      h₂.lands h₃.1 h₃.2
    refine (lands_forM (G := fun (c : D × W) s' => Recorded s' ⟨c.1, r, t.1⟩)
      (fun h h' => h'.recorded h) fun c _ s₄ _ => lands_propagate _ _ _).mono
      fun _ s₄ h₄ => ⟨h₄.1, ?_⟩
    -- the fact at the call has a source
    obtain ⟨source, he⟩ := hcaller
    obtain ⟨f, hf⟩ := h₂.recorded he
    exact ⟨source, h₄.2 (source, f) (State.mem_sourcesOf.mpr hf)⟩

/-- An exit is returned from to everybody on record as a caller, and
each of them is on record for a path edge at the call. -/
theorem lands_processExit (e : PathEdge D)
    (hcallers : ∀ i ∈ s.incoming, Reached s i.site i.callFact) :
    Ensures (fun _ => True) (processExit S e) (fun _ s' => Lands s s') s := by
  unfold processExit
  refine (ensures_jumpFunction_of (fun _ => trivial) e).bind fun w s₁ h => ?_
  obtain ⟨rfl, _⟩ := h
  refine Ensures.get_bind ?_
  refine (ensures_askOf_of fun _ => trivial).bind fun callee s₂ h => ?_
  obtain ⟨rfl, _⟩ := h
  split
  · exact Ensures.throw trivial
  · refine Ensures.modify_bind (Ensures.get_bind ?_)
    refine (lands_each fun i hi s₃ h₃ => lands_returnTo e w callee ?_).mono
      fun _ s₃ h₃ => h₃.after rfl rfl
    have hi := (State.mem_callersOf.mp hi).1
    exact (hcallers i hi).lands (h₃.after rfl rfl)

theorem lands_process (e : PathEdge D)
    (hcallers : ∀ i ∈ s.incoming, Reached s i.site i.callFact) :
    Ensures (fun _ => True) (process S e) (fun _ s' => Lands s s') s := by
  unfold process
  refine Ensures.get_bind ?_
  split
  · exact lands_processCall e
  · refine (ensures_askOf_of fun _ => trivial).bind fun isExit s₁ h => ?_
    obtain ⟨rfl, _⟩ := h
    split
    · exact lands_processExit e hcallers
    · exact lands_processNormal e

/-- A turn lands: it follows one path edge, or puts path edges back on
the list. -/
theorem lands_turn (hcallers : ∀ i ∈ s.incoming, Reached s i.site i.callFact) :
    Ensures (fun _ => True) (turn S) (fun _ s' => Lands s s') s := by
  refine ensures_turn_of (fun _ _ _ _ => .aside rfl rfl)
    fun e rest iterations => ?_
  have hprocess : Ensures (fun _ => True) (process S e) _
      (relisted s rest s.seenRevision iterations s.stats.calleeRescans) :=
    lands_process e hcallers
  exact hprocess.mono fun _ _ h => h.after rfl rfl

end Tabulation.Solver
