/-
The moves that a run is made of.

Following a path edge is a sequence of small changes to the tables.
There are few kinds of them, and each is made for a reason that the
tables show: a flow is evaluated because the path edge, or the caller
and the summary, on which it rests is on record (`Crosses`); a path
edge is stored because such a flow yields it (`Arises`). A `Move`
leaves alone who called whom. A `Stride` is a move, or it changes that:
a caller, a callee, a call flow or a summary is put on record.

What holds of the tables at every moment of a run is proved from this
list, one case a kind. Nothing is said here about soundness or closure,
and no move is said to have been made; that is for `Solver/Walk`.

# Notes

A flow that was evaluated has its facts numbered and, if the settings
ask for it, its edges recorded (`Noted`). What is yielded by a flow is
used only when it is noted.
-/
import Mathlib.Logic.Relation
import Tabulation.Proofs.EffectiveFlow
import Tabulation.Proofs.Solver.Closure

namespace Tabulation.Solver

variable {D W L : Type} [DecidableEq D]

-- ============================================================= vocabulary

/-- Edges that lead on inside the procedure of a node: from the node
itself, past the call that it is, or back to it. -/
inductive Resumes : FlowEdge → Node → Prop
  | normal (n m : Node) : Resumes (.normal n m) n
  | pass (c r : Node) : Resumes (.callToReturn c r) c
  | ret (c : Node) (g : Proc) (x r : Node) : Resumes (.ret c g x r) c

/-- A summary is on record. With which function does not matter to the
moves. -/
def Summarized (s : State D W L) (k : SummaryEdge D) : Prop :=
  ∃ h, s.summaries.get? k = some h

section Vocabulary

variable [DecidableEq L] (S : Setup D W L)

/-- The flows that the tables give reason to evaluate: an edge, the
fact before it, and what the solver takes it to yield. -/
inductive Crosses (s : State D W L) : FlowEdge → D → List (D × W) → Prop
  | normal {e : PathEdge D} {m : Node} : Recorded s e →
      (S.view s.graph).isCall e.node = false →
      (S.view s.graph).isExit? e.node = some false →
      m ∈ (S.view s.graph).successors e.node →
      Crosses s (.normal e.node m) e.target (S.normalTargets e.node m e.target)
  | call {e : PathEdge D} {g : Proc} {start : Node} : Recorded s e →
      (S.view s.graph).Enters e.node g start →
      Crosses s (.call e.node g start) e.target
        (S.callTargets e.node g start e.target)
  | ret {i : Incoming D} {k : SummaryEdge D} {r : Node} : i ∈ s.incoming →
      Summarized s k → (S.view s.graph).start? k.proc = some i.start →
      k.entry = i.entry →
      (S.view s.graph).returnSite? i.site = some r →
      Crosses s (.ret i.site k.proc k.exit r) k.exitFact
        (S.returnTargets i.site k.proc k.exit r k.exitFact i.callFact)
  | pass {e : PathEdge D} {r : Node} : Recorded s e →
      (S.view s.graph).isCall e.node = true →
      (S.view s.graph).returnSite? e.node = some r →
      Crosses s (.callToReturn e.node r) e.target
        (S.passTargets e.node r e.target)

/-- A flow was evaluated and had an answer: its facts are numbered, and
its edges recorded if they are to be. Being noted lasts (`Noted.grow`). -/
structure Noted (s : State D W L) (edge : FlowEdge) (d : D)
    (ts : List (D × W)) : Prop where
  answered : ∃ answer, ts = S.effective d answer
  facts : ∀ t ∈ ts, t.1 ∈ s.facts
  edges : S.config.recordEdges = true →
    ∀ t ∈ ts, ExplodedEdge.along edge d t.1 ∈ s.exploded

/-- The path edges that the tables give reason to store. -/
inductive Arises (s : State D W L) : PathEdge D → Prop
  /-- A flow leads on inside the procedure that a path edge is about. -/
  | within {edge : FlowEdge} {d : D} {ts : List (D × W)} {t : D × W}
      {e : PathEdge D} : Crosses S s edge d ts → Noted S s edge d ts → t ∈ ts →
      Recorded s e →
      Resumes edge e.node → Arises s ⟨e.source, edge.target, t.1⟩
  /-- A flow leads into a callee that is known, and is kept. -/
  | entry {c start : Node} {g : Proc} {d : D} {ts : List (D × W)} {t : D × W} :
      Crosses S s (.call c g start) d ts → Noted S s (.call c g start) d ts →
      t ∈ ts → (c, g) ∈ s.known → s.callFlows.get? c (g, d) = some ts →
      Arises s ⟨t.1, start, t.1⟩

/-- The tables once the answer of a flow function is taken over:
`facts` are those of the answer, `ts` the targets that the solver takes
it to have. -/
def logged (s : State D W L) (edge : FlowEdge) (d : D) (facts : List D)
    (ts : List (D × W)) : State D W L :=
  { s with
    facts := Listing.addAll s.facts facts
    exploded :=
      if S.config.recordEdges then
        (ts.map fun t => ExplodedEdge.along edge d t.1).reverse ++ s.exploded
      else s.exploded }

/-- The tables once a path edge got a jump function and is pending. -/
def queued (s : State D W L) (e : PathEdge D) (w : W) : State D W L :=
  { s.setJump e w with worklist := s.worklist ++ [e] }

/-- The tables once the requests of a flow function are served. -/
def served (s : State D W L) (edge : FlowEdge) (d : D) : State D W L :=
  (S.problem.requests s.evaluations edge d).foldl State.serve
    { s with evaluations := s.evaluations + 1 }

/-- The tables with another list of pending path edges, and the counts
of the loop moved on. -/
def relisted (s : State D W L) (pending : List (PathEdge D))
    (seen iterations rescans : Nat) : State D W L :=
  { s with
    worklist := pending
    seenRevision := seen
    stats :=
      { s.stats with
        worklistIterations := iterations
        calleeRescans := rescans } }

/-- A small change of the tables that leaves alone who called whom. -/
inductive Move : State D W L → State D W L → Prop
  /-- Links are noted, or the use of a summary. -/
  | note (s : State D W L) (links : Links) (reuses : Nat) :
      Move s { s with links, stats := { s.stats with summaryReuses := reuses } }
  /-- A flow function has its requests served. -/
  | serve (s : State D W L) (edge : FlowEdge) (d : D) :
      Move s (served S s edge d)
  /-- The answer of a flow function is taken over. -/
  | cross {s : State D W L} {edge : FlowEdge} {d : D} {ts : List (D × W)}
      {facts : List D} : Crosses S s edge d ts →
      (∀ e ∈ facts, e ∈ ts.map Prod.fst) →
      Move s (logged S s edge d facts ts)
  /-- A path edge is stored. -/
  | store {s : State D W L} {e : PathEdge D} (w : W) : s.jump? e = none →
      Arises S s e → Move s (queued s e w)
  /-- A jump function is replaced by an accepted join. -/
  | raise {s : State D W L} {e : PathEdge D} {f g : W} : s.jump? e = some f →
      (S.config.checkMonotonicity = true →
        S.isUpperBound (S.problem.functions.join f g) f g = true) →
      S.problem.functions.join f g ≠ f →
      Move s (queued
        { s with stats.jumpFunctionUpdates := s.stats.jumpFunctionUpdates + 1 }
        e (S.problem.functions.join f g))

/-- A small change of the tables. -/
inductive Stride : State D W L → State D W L → Prop
  | move {s s' : State D W L} : Move S s s' → Stride s s'
  /-- The flow into a callee is kept for later. -/
  | cache {s : State D W L} {c start : Node} {g : Proc} {d : D} :
      Crosses S s (.call c g start) d (S.callTargets c g start d) →
      Noted S s (.call c g start) d (S.callTargets c g start d) →
      s.callFlows.get? c (g, d) = none →
      Stride s
        { s with
          callFlows := s.callFlows.insert c (g, d) (S.callTargets c g start d) }
  /-- A caller is put on record. -/
  | enter {s : State D W L} {i : Incoming D} {g : Proc} {ts : List (D × W)} :
      i ∉ s.incoming → Crosses S s (.call i.site g i.start) i.callFact ts →
      i.entry ∈ ts.map Prod.fst →
      Stride s
        { s with
          incoming := s.incoming ++ [i]
          stats.incomingEdges := s.stats.incomingEdges + 1 }
  /-- A callee without a body is counted. -/
  | bodiless (s : State D W L) :
      Stride s { s with stats.bodilessCallees := s.stats.bodilessCallees + 1 }
  /-- The callees of a call site are known from now on. -/
  | acquaint {s : State D W L} {e : PathEdge D} : Recorded s e →
      (S.view s.graph).isCall e.node = true →
      Stride s (acquaint s e.node ((S.view s.graph).callees e.node))
  /-- A summary is put on record. -/
  | summarize {s : State D W L} {x : PathEdge D} {h : W} {g : Proc} :
      s.jump? x = some h → (S.view s.graph).Leaves x.node g →
      Stride s
        { s with
          summaries := s.summaries.insert ⟨g, x.source, x.node, x.target⟩ h }

/-- Moves, one after the other. Most computations of the solver make a
trail. -/
abbrev Trail : State D W L → State D W L → Prop :=
  Relation.ReflTransGen (Move S)

/-- Strides, one after the other. Following a path edge as a whole
makes a course. -/
abbrev Course : State D W L → State D W L → Prop :=
  Relation.ReflTransGen (Stride S)

/-- How tables change along a course: nothing gets lost, and a path
edge whose jump function is new is pending. Jump functions and
summaries may be replaced, so only their presence is spoken of. -/
structure Grows (s s' : State D W L) : Prop where
  view : (S.view s.graph).GrowsTo (S.view s'.graph)
  recorded : ∀ {e}, Recorded s e → Recorded s' e
  changed : ∀ e, s'.jump? e = s.jump? e ∨ e ∈ s'.worklist
  worklist : ∀ {e}, e ∈ s.worklist → e ∈ s'.worklist
  incoming : ∀ {i}, i ∈ s.incoming → i ∈ s'.incoming
  summarized : ∀ {k}, Summarized s k → Summarized s' k
  callFlow : ∀ {c k ts}, s.callFlows.get? c k = some ts →
    s'.callFlows.get? c k = some ts
  known : ∀ {k}, k ∈ s.known → k ∈ s'.known
  facts : ∀ {d}, d ∈ s.facts → d ∈ s'.facts
  exploded : ∀ {x}, x ∈ s.exploded → x ∈ s'.exploded
  seeds : s'.seeds = s.seeds
  seenRevision : s'.seenRevision = s.seenRevision

/-- What a trail leaves alone: the tables in which callers, callees and
summaries meet, and the counts that go with them. -/
structure Spares (s s' : State D W L) : Prop where
  incoming : s'.incoming = s.incoming
  summaries : s'.summaries = s.summaries
  callFlows : s'.callFlows = s.callFlows
  known : s'.known = s.known
  incomingEdges : s'.stats.incomingEdges = s.stats.incomingEdges
  bodiless : s'.stats.bodilessCallees = s.stats.bodilessCallees

end Vocabulary

variable {S : Setup D W L} {s s' s'' : State D W L}

-- ===================================================== what the changes do

theorem jump?_queued (s : State D W L) (e e' : PathEdge D) (w : W) :
    (queued s e w).jump? e' = if e = e' then some w else s.jump? e' :=
  State.jump?_setJump s e e' w

theorem recorded_queued (s : State D W L) (e : PathEdge D) (w : W) :
    Recorded (queued s e w) e :=
  ⟨w, (jump?_queued s e e w).trans (if_pos rfl)⟩

/-- Storing a path edge records that one and no other. -/
theorem recorded_queued_iff {e e' : PathEdge D} {w : W} :
    Recorded (queued s e w) e' ↔ Recorded s e' ∨ e' = e := by
  unfold Recorded
  simp only [jump?_queued]
  by_cases he : e = e'
  · simp [he]
  · simp [he, Ne.symm he]

omit [DecidableEq D] in
/-- Requests change the graph and the cancellation flag, and one
evaluation is counted. All other tables are as they were. -/
theorem served_eq (s : State D W L) (edge : FlowEdge) (d : D) :
    served S s edge d =
      { s with
        graph := (served S s edge d).graph
        cancelled := (served S s edge d).cancelled
        evaluations := s.evaluations + 1 } :=
  serveAll_eq _ _

omit [DecidableEq D] in
/-- In a steady setup the graph grows when requests are served, however
many there are. -/
private theorem growsTo_served (hsteady : S.IsSteady) (s : State D W L)
    (edge : FlowEdge) (d : D) :
    (S.view s.graph).GrowsTo (S.view (served S s edge d).graph) :=
  growsTo_serveAll (s := { s with evaluations := s.evaluations + 1 })
    (hsteady s.evaluations edge d)

theorem Grows.refl (s : State D W L) : Grows S s s :=
  ⟨.refl _, id, fun _ => Or.inl rfl, id, id, id, id, id, id, id, rfl, rfl⟩

/-- One growth after another. A path edge whose jump function changed
first is still pending at the end. -/
theorem Grows.trans (h : Grows S s s') (h' : Grows S s' s'') :
    Grows S s s'' where
  view := h.view.trans h'.view
  recorded := fun hr => h'.recorded (h.recorded hr)
  changed := by
    intro e
    rcases h'.changed e with he | he
    · rcases h.changed e with he' | he'
      · exact Or.inl (he.trans he')
      · exact Or.inr (h'.worklist he')
    · exact Or.inr he
  worklist := fun hr => h'.worklist (h.worklist hr)
  incoming := fun hr => h'.incoming (h.incoming hr)
  summarized := fun hr => h'.summarized (h.summarized hr)
  callFlow := fun hr => h'.callFlow (h.callFlow hr)
  known := fun hr => h'.known (h.known hr)
  facts := fun hr => h'.facts (h.facts hr)
  exploded := fun hr => h'.exploded (h.exploded hr)
  seeds := h'.seeds.trans h.seeds
  seenRevision := h'.seenRevision.trans h.seenRevision

/-- Giving a path edge a jump function, new or raised, is growth: it is
pending afterwards. -/
private theorem grows_queued (s : State D W L) (e : PathEdge D) (w : W) :
    Grows S s (queued s e w) where
  view := .refl _
  recorded := fun hr => recorded_queued_iff.mpr (Or.inl hr)
  changed := by
    intro e'
    rw [jump?_queued]
    by_cases he : e = e'
    · exact Or.inr (List.mem_append_right _ (List.mem_singleton.mpr he.symm))
    · exact Or.inl (if_neg he)
  worklist := fun he => List.mem_append_left _ he
  incoming := id
  summarized := id
  callFlow := id
  known := id
  facts := id
  exploded := id
  seeds := rfl
  seenRevision := rfl

section Runs

variable [DecidableEq L]

/-- Every move lets the tables grow. Only requests touch the graph, and
that is where the setup has to be steady. -/
theorem Move.grows (hsteady : S.IsSteady) (h : Move S s s') : Grows S s s' := by
  cases h with
  | note links reuses =>
    exact ⟨.refl _, id, fun _ => Or.inl rfl, id, id, id, id, id, id,
        id, rfl, rfl⟩
  | serve edge d =>
    have hview := growsTo_served hsteady s edge d
    rw [served_eq] at hview ⊢
    exact ⟨hview, id, fun _ => Or.inl rfl, id, id, id, id, id, id, id, rfl, rfl⟩
  | @cross edge d ts facts hx hfacts =>
    refine ⟨.refl _, id, fun _ => Or.inl rfl, id, id, id, id, id,
      fun hd => Listing.mem_addAll.mpr (Or.inl hd), fun hx => ?_, rfl, rfl⟩
    unfold logged
    dsimp only
    split
    · exact List.mem_append_right _ hx
    · exact hx
  | @store e w hnew hA => exact grows_queued s e w
  | @raise e f g hf hok hne =>
    have h := grows_queued (S := S)
      { s with stats.jumpFunctionUpdates := s.stats.jumpFunctionUpdates + 1 } e
      (S.problem.functions.join f g)
    exact ⟨h.view, h.recorded, h.changed, h.worklist, h.incoming, h.summarized,
      h.callFlow, h.known, h.facts, h.exploded, h.seeds, h.seenRevision⟩

/-- Every stride lets the tables grow. A call flow is put on record
once, so none is replaced. -/
theorem Stride.grows (hsteady : S.IsSteady) (h : Stride S s s') :
    Grows S s s' := by
  cases h with
  | move hmove => exact hmove.grows hsteady
  | @cache c start g d hx hnoted hnew =>
    refine ⟨.refl _, id, fun _ => Or.inl rfl, id, id, id, fun {c' k ts} hts =>
      ?_, id, id, id, rfl, rfl⟩
    dsimp only
    rw [Grid.get?_insert]
    split
    next hk =>
      obtain ⟨rfl, rfl⟩ := hk
      cases hnew.symm.trans hts
    next => exact hts
  | enter hnew hx hentry =>
    exact ⟨.refl _, id, fun _ => Or.inl rfl, id,
      fun hi => List.mem_append_left _ hi, id, id, id, id, id, rfl, rfl⟩
  | bodiless =>
    exact ⟨.refl _, id, fun _ => Or.inl rfl, id, id, id, id, id, id,
        id, rfl, rfl⟩
  | acquaint he hcall =>
    exact ⟨.refl _, id, fun _ => Or.inl rfl, id, id, id, id,
      fun hk => Listing.mem_addAll.mpr (Or.inl hk), id, id, rfl, rfl⟩
  | @summarize x h g hh hleave =>
    refine ⟨.refl _, id, fun _ => Or.inl rfl, id, id, fun {k} hk => ?_, id, id,
        id, id, rfl, rfl⟩
    unfold Summarized at hk ⊢
    dsimp only
    rw [Table.get?_insert]
    split
    · exact ⟨h, rfl⟩
    · exact hk

/-- Where nothing is asked for, the graph stays as it is. Serving
requests is the only stride that could change it. -/
theorem Stride.graph_eq (hpure : S.problem.IsPure) (h : Stride S s s') :
    s'.graph = s.graph := by
  cases h with
  | move hmove =>
    cases hmove with
    | serve edge d =>
      unfold served
      rw [hpure]
      rfl
    | _ => rfl
  | _ => rfl

/-- And so along a whole course. -/
theorem Course.graph_eq (hpure : S.problem.IsPure) (h : Course S s s') :
    s'.graph = s.graph := by
  induction h with
  | refl => rfl
  | tail _ hstride ih => exact (hstride.graph_eq hpure).trans ih

/-- Whatever is on record stays there along a course. This is how facts
known before a computation are used after it. -/
theorem Course.grows (hsteady : S.IsSteady) (h : Course S s s') :
    Grows S s s' := by
  induction h with
  | refl => exact .refl s
  | tail _ hstride ih => exact ih.trans (hstride.grows hsteady)

theorem Trail.course (h : Trail S s s') : Course S s s' :=
  h.lift id fun _ _ => Stride.move

theorem Trail.grows (hsteady : S.IsSteady) (h : Trail S s s') : Grows S s s' :=
  h.course.grows hsteady

/-- No move touches the tables that `Spares` lists. -/
theorem Move.spares (h : Move S s s') : Spares s s' := by
  cases h with
  | serve edge d =>
    rw [served_eq]
    exact ⟨rfl, rfl, rfl, rfl, rfl, rfl⟩
  | _ => exact ⟨rfl, rfl, rfl, rfl, rfl, rfl⟩

/-- And so no trail does. -/
theorem Trail.spares (h : Trail S s s') : Spares s s' := by
  induction h with
  | refl => exact ⟨rfl, rfl, rfl, rfl, rfl, rfl⟩
  | tail _ hmove ih =>
    have hlast := hmove.spares
    exact ⟨hlast.incoming.trans ih.incoming, hlast.summaries.trans ih.summaries,
      hlast.callFlows.trans ih.callFlows, hlast.known.trans ih.known,
      hlast.incomingEdges.trans ih.incomingEdges,
        hlast.bodiless.trans ih.bodiless⟩

end Runs

-- ======================================================== what growth keeps

/-- A reason to evaluate a flow is not lost, and the targets stay the
same: the graph keeps saying about a node what it has said. -/
theorem Crosses.grow (hs : Grows S s s') {edge : FlowEdge} {d : D}
    {ts : List (D × W)} (h : Crosses S s edge d ts) :
    Crosses S s' edge d ts := by
  cases h with
  | normal he hcall hexit hm =>
    exact .normal (hs.recorded he) (by rw [hs.view.isCall]; exact hcall)
      (by rw [hs.view.isExit?]; exact hexit)
        (by rw [hs.view.successors]; exact hm)
  | call he henter => exact .call (hs.recorded he) (hs.view.enters henter)
  | ret hi hk hstart hentry hr =>
    exact .ret (hs.incoming hi) (hs.summarized hk)
      (by rw [hs.view.start?]; exact hstart) hentry
      (by rw [hs.view.returnSite?]; exact hr)
  | pass he hcall hr =>
    exact .pass (hs.recorded he) (by rw [hs.view.isCall]; exact hcall)
      (by rw [hs.view.returnSite?]; exact hr)

/-- A flow into a callee leaves from a path edge at its call. -/
theorem Crosses.exists_caller {c start : Node} {g : Proc} {d : D}
    {ts : List (D × W)} (h : Crosses S s (.call c g start) d ts) :
    (∃ source, Recorded s ⟨source, c, d⟩) ∧ (S.view s.graph).Enters c g start ∧
      ts = S.callTargets c g start d := by
  cases h with
  | @call e _ _ he henter => exact ⟨⟨e.source, he⟩, henter, rfl⟩

theorem Noted.grow (hs : Grows S s s') {edge : FlowEdge} {d : D}
    {ts : List (D × W)} (h : Noted S s edge d ts) : Noted S s' edge d ts where
  answered := h.answered
  facts := fun t ht => hs.facts (h.facts t ht)
  edges := fun hon t ht => hs.exploded (h.edges hon t ht)

/-- Taking over an answer notes the flow. Facts that have a number
already may be missing from the list of new ones. -/
theorem noted_logged {edge : FlowEdge} {d : D} {facts : List D}
    {answer : List (D × W)}
    (hfacts : ∀ t ∈ S.effective d answer, t.1 ∈ s.facts ∨ t.1 ∈ facts) :
    Noted S (logged S s edge d facts (S.effective d answer)) edge d
      (S.effective d answer) where
  answered := ⟨answer, rfl⟩
  facts := fun t ht => Listing.mem_addAll.mpr (hfacts t ht)
  edges := by
    intro hon t ht
    unfold logged
    dsimp only
    rw [if_pos hon]
    refine List.mem_append_left _ (List.mem_reverse.mpr ?_)
    exact List.mem_map.mpr ⟨t, ht, rfl⟩

-- =================================================== what is always kept

variable {I₀ : Icfg}

variable (S I₀) in
/-- The graph has grown from `I₀`, zero has a number, what is pending
is on record, and the call flows on record are those of the problem.
Every run keeps this, whatever the problem is like. -/
structure Kept (s : State D W L) : Prop where
  origin : I₀.GrowsTo (S.view s.graph)
  zero : S.problem.zero ∈ s.facts
  pending : ∀ {e}, e ∈ s.worklist → Recorded s e
  callFlow : ∀ {c g d ts}, s.callFlows.get? c (g, d) = some ts →
    ∃ start, (S.view s.graph).Enters c g start ∧
      ts = S.callTargets c g start d ∧ Noted S s (.call c g start) d ts

/-- Changes elsewhere keep it: the tables have grown, what is newly
pending is on record, and no call flow is new. -/
theorem Kept.grow (hs : Kept S I₀ s) (h : Grows S s s')
    (hpending : ∀ {e}, e ∈ s'.worklist → e ∈ s.worklist ∨ Recorded s' e)
    (hflows : s'.callFlows = s.callFlows) : Kept S I₀ s' where
  origin := hs.origin.trans h.view
  zero := h.facts hs.zero
  pending := by
    intro e he
    rcases hpending he with hold | hnew
    · exact h.recorded (hs.pending hold)
    · exact hnew
  callFlow := by
    intro c g d ts ht
    rw [hflows] at ht
    obtain ⟨start, henter, hts, hnoted⟩ := hs.callFlow ht
    exact ⟨start, h.view.enters henter, hts, hnoted.grow h⟩

/-- What is pending after a path edge is stored was so before, or is
that edge. -/
private theorem mem_worklist_queued {e e' : PathEdge D} {w : W}
    (h : e' ∈ (queued s e w).worklist) :
    e' ∈ s.worklist ∨ Recorded (queued s e w) e' := by
  rcases List.mem_append.mp h with h | h
  · exact Or.inl h
  · rw [List.mem_singleton.mp h]
    exact Or.inr (recorded_queued s e w)

/-- The list of pending path edges may be replaced by any list of
recorded ones, as the loop does when it takes one off or starts over. -/
theorem Kept.relisted (hs : Kept S I₀ s) {pending : List (PathEdge D)}
    (hpending : ∀ {e}, e ∈ pending → Recorded s e)
    (seen iterations rescans : Nat) :
    Kept S I₀ (relisted s pending seen iterations rescans) :=
  ⟨hs.origin, hs.zero, hpending, fun ht => by
    obtain ⟨start, henter, hts, hnoted⟩ := hs.callFlow ht
    exact ⟨start, henter, hts, hnoted.answered, hnoted.facts, hnoted.edges⟩⟩

variable [DecidableEq L]

/-- Every move keeps it, since a move leaves call flows alone. -/
theorem Kept.move (hsteady : S.IsSteady) (hs : Kept S I₀ s) (h : Move S s s') :
    Kept S I₀ s' := by
  have hgrows := h.grows hsteady
  cases h with
  | serve edge d =>
    refine hs.grow hgrows (fun {e} he => Or.inl ?_) (by rw [served_eq])
    rw [served_eq] at he
    exact he
  | store w => exact hs.grow hgrows mem_worklist_queued rfl
  | raise => exact hs.grow hgrows mem_worklist_queued rfl
  | _ => exact hs.grow hgrows Or.inl rfl

/-- Every stride keeps it. The one that puts a call flow on record
brings the note and the targets that are asked for. -/
theorem Kept.stride (hsteady : S.IsSteady) (hs : Kept S I₀ s)
    (h : Stride S s s') : Kept S I₀ s' := by
  have hgrows := h.grows hsteady
  cases h with
  | move hmove => exact hs.move hsteady hmove
  | @cache c start g d hx hnoted hnew =>
    refine ⟨hs.origin, hs.zero, hs.pending, fun {c' g' d' ts} ht => ?_⟩
    rw [Grid.get?_insert] at ht
    split at ht
    next hk =>
      obtain ⟨rfl, hk⟩ := hk
      obtain ⟨rfl, rfl⟩ := Prod.mk.injEq .. ▸ hk
      cases ht
      cases hx with
      | call _ henter => exact ⟨start, henter, rfl, hnoted.grow hgrows⟩
    next =>
      obtain ⟨start', henter, hts, hnoted'⟩ := hs.callFlow ht
      exact ⟨start', henter, hts, hnoted'.grow hgrows⟩
  | _ => exact hs.grow hgrows Or.inl rfl

end Tabulation.Solver
